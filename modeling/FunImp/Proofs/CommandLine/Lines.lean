import Mathlib.Data.List.Induction
import FunImp.CommandLine.Input
import FunImp.Proofs.Text.Bytes

/-! # Lines of an input

The bytes of a text fall into lines where its characters do. So an input that is a text is read line
by line to the end, and `linesOf` says what its lines are. -/

namespace FunImp.CommandLine

/-- The line without a carriage return at its end. -/
def withoutReturn (line : List Char) : List Char :=
  if line.getLast? = some '\r' then line.dropLast else line

/-- The lines of a text. A line feed ends a line, with the carriage return right before it. What
stands behind the last line feed is a line as it is, if it is anything. -/
def linesOf (text : List Char) : List (List Char) :=
  let rows := text.splitOn '\n'
  rows.dropLast.map withoutReturn ++ rows.getLast?.toList.filter (· ≠ [])

theorem linesOf_of_not_mem {cs : List Char} (h : '\n' ∉ cs) :
    linesOf cs = if cs = [] then [] else [cs] := by
  rw [linesOf, List.splitOn_eq_singleton h]
  by_cases hcs : cs = []
  · simp [hcs]
  · simp [hcs]

theorem linesOf_append {row : List Char} (h : '\n' ∉ row) (rest : List Char) :
    linesOf (row ++ '\n' :: rest) = withoutReturn row :: linesOf rest := by
  have hne := List.splitOn_ne_nil '\n' rest
  rw [linesOf, List.splitOn_append_cons_self, List.splitOn_eq_singleton h, List.singleton_append,
    List.dropLast_cons_of_ne_nil hne, List.getLast?_cons_of_ne_nil hne]
  rfl

private theorem toList_loop (bytes : ByteArray) (i : Nat) (passed : List UInt8) :
    ByteArray.toList.loop bytes i passed = passed.reverse ++ bytes.data.toList.drop i := by
  fun_induction ByteArray.toList.loop bytes i passed with
  | case1 i passed hi ih =>
    have hlt : i < bytes.data.toList.length := by rwa [Array.length_toList]
    have hget : bytes.get! i = bytes.data.toList[i] := by
      rw [Array.getElem_toList]
      exact getElem!_pos bytes.data i hi
    rw [ih, List.reverse_cons, List.append_assoc, List.singleton_append, hget,
      ← List.drop_eq_getElem_cons hlt]
  | case2 i passed hi =>
    have hle : bytes.data.toList.length ≤ i := by rwa [Array.length_toList, ← Nat.not_lt]
    rw [List.drop_eq_nil_of_le hle, List.append_nil]

theorem toList_toByteArray (bytes : List UInt8) : bytes.toByteArray.toList = bytes := by
  rw [ByteArray.toList, toList_loop, List.toList_data_toByteArray]
  rfl

theorem decode?_eq_some_iff {bytes : ByteArray} {text : String} :
    decode? bytes = some text ↔ bytes = text.toUTF8 := by
  rw [decode?, String.fromUTF8?]
  constructor
  · intro h
    split at h
    · cases h
      rfl
    · cases h
  · rintro rfl
    exact dif_pos text.isValidUTF8

theorem splitLinesFrom_of_not_mem {bytes : List UInt8} (h : 10 ∉ bytes) (line : List UInt8) :
    splitLinesFrom line bytes =
      if line = [] ∧ bytes = [] then [] else [line.reverse ++ bytes] := by
  induction bytes generalizing line with
  | nil => simp [splitLinesFrom]
  | cons b bytes ih =>
    have hb : b ≠ 10 := (List.ne_of_not_mem_cons h).symm
    rw [splitLinesFrom, if_neg hb, ih (List.not_mem_of_not_mem_cons h)]
    simp

theorem splitLinesFrom_append {bytes : List UInt8} (h : 10 ∉ bytes) (line rest : List UInt8) :
    splitLinesFrom line (bytes ++ 10 :: rest) =
      splitLinesFrom (bytes.reverse ++ line) (10 :: rest) := by
  induction bytes generalizing line with
  | nil => rfl
  | cons b bytes ih =>
    have hb : b ≠ 10 := (List.ne_of_not_mem_cons h).symm
    rw [List.cons_append, splitLinesFrom, if_neg hb, ih (List.not_mem_of_not_mem_cons h)]
    simp

/-- The byte of a carriage return ends a row where the character does. -/
theorem head?_reverse_utf8 {row : List Char} :
    (utf8 row).reverse.head? = some 13 ↔ row.getLast? = some '\r' := by
  induction row using List.reverseRecOn with
  | nil => simp
  | append_singleton front c _ =>
    have hbytes : String.utf8EncodeChar c ≠ [] := String.utf8EncodeChar_ne_nil
    rw [List.head?_reverse, utf8_append, utf8_cons, utf8_nil, List.append_nil,
      List.getLast?_append_of_ne_nil _ hbytes, List.getLast?_concat, Option.some.injEq]
    constructor
    · intro hc
      exact eq_of_mem_utf8EncodeChar rfl rfl (List.mem_of_getLast? hc)
    · rintro rfl
      rfl

theorem splitLinesFrom_row (row : List Char) (rest : List UInt8) :
    splitLinesFrom (utf8 row).reverse (10 :: rest) =
      utf8 (withoutReturn row) :: splitLinesFrom [] rest := by
  rw [splitLinesFrom, if_pos rfl, withoutReturn]
  by_cases hrow : row.getLast? = some '\r'
  · obtain ⟨front, rfl⟩ : ∃ front, row = front ++ ['\r'] :=
      ⟨row.dropLast, (List.dropLast_append_getLast? _ hrow).symm⟩
    rw [if_pos hrow, if_pos (head?_reverse_utf8.2 hrow), List.dropLast_concat, utf8_append,
      List.reverse_append]
    exact congrArg (· :: _) (List.reverse_reverse _)
  · rw [if_neg hrow, if_neg (mt head?_reverse_utf8.1 hrow)]
    exact congrArg (· :: _) (List.reverse_reverse _)

theorem splitLinesFrom_utf8 (cs : List Char) :
    splitLinesFrom [] (utf8 cs) = (linesOf cs).map utf8 := by
  induction hn : cs.length using Nat.strongRecOn generalizing cs with
  | _ n ih =>
    subst hn
    by_cases hmem : '\n' ∈ cs
    · obtain ⟨row, rest, rfl, hrow⟩ := List.eq_append_cons_of_mem hmem
      have hbytes : utf8 (row ++ '\n' :: rest) = utf8 row ++ 10 :: utf8 rest := utf8_append _ _
      have hlt : rest.length < (row ++ '\n' :: rest).length := by
        rw [List.length_append, List.length_cons]
        omega
      rw [linesOf_append hrow, List.map_cons, hbytes,
        splitLinesFrom_append (mt lineFeed_mem_utf8.1 hrow), List.append_nil, splitLinesFrom_row,
        ih _ hlt rest rfl]
    · rw [linesOf_of_not_mem hmem, splitLinesFrom_of_not_mem (mt lineFeed_mem_utf8.1 hmem)]
      cases cs with
      | nil => rfl
      | cons c cs => simp

/-- A text is read line by line to its end. -/
theorem decodeLines_splitLines (text : String) :
    decodeLines (splitLines text.toUTF8) = ((linesOf text.toList).map .ofList, true) := by
  rw [splitLines, toUTF8_eq, toList_toByteArray, splitLinesFrom_utf8, List.map_map]
  induction linesOf text.toList with
  | nil => rfl
  | cons line lines ih =>
    have hline : decode? ⟨(utf8 line).toArray⟩ = some (.ofList line) := by
      rw [decode?_eq_some_iff, toUTF8_eq, String.toList_ofList]
      exact ByteArray.ext List.data_toByteArray.symm
    rw [List.map_cons, decodeLines, Function.comp_apply, hline, ih]
    rfl

end FunImp.CommandLine
