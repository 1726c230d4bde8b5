import Mathlib.Data.List.Basic
import FunImp.Text.Source

/-! # Positions and slices of a text

Moving over characters is the same as counting in the whole text, and the slice between two counted
positions is what stands between them. -/

namespace FunImp

private theorem foldl_utf8Size (n : Nat) (cs : List Char) :
    cs.foldl (fun n c => n + c.utf8Size) n = n + byteLength cs := by
  induction cs generalizing n with
  | nil => rfl
  | cons c cs ih =>
    rw [byteLength, List.foldl_cons, List.foldl_cons, ih, ih (0 + c.utf8Size)]
    omega

@[simp] theorem byteLength_nil : byteLength [] = 0 := rfl

@[simp] theorem byteLength_cons (c : Char) (cs : List Char) :
    byteLength (c :: cs) = c.utf8Size + byteLength cs := by
  rw [byteLength, List.foldl_cons, foldl_utf8Size, Nat.zero_add]

@[simp] theorem byteLength_append (cs ds : List Char) :
    byteLength (cs ++ ds) = byteLength cs + byteLength ds := by
  induction cs with
  | nil => simp
  | cons c cs ih => rw [List.cons_append, byteLength_cons, byteLength_cons, ih, Nat.add_assoc]

@[simp] theorem byteLength_reverse (cs : List Char) : byteLength cs.reverse = byteLength cs := by
  induction cs with
  | nil => rfl
  | cons c cs ih => simp [ih, Nat.add_comm]

theorem byteLength_eq_zero_iff {cs : List Char} : byteLength cs = 0 ↔ cs = [] := by
  cases cs with
  | nil => simp
  | cons c cs =>
    have hpos := c.utf8Size_pos
    simp only [byteLength_cons, reduceCtorEq, iff_false]
    omega

namespace Position

theorem advance_ofText (cs : List Char) (c : Char) :
    (ofText cs).advance c = ofText (cs ++ [c]) := by
  by_cases hc : c = '\n'
  · subst hc
    simp [advance, ofText, Nat.add_assoc]
  · simp [advance, ofText, hc, Nat.add_assoc]

/-- Moving over characters counts them. -/
theorem after_ofText (cs ds : List Char) : (ofText cs).after ds = ofText (cs ++ ds) := by
  induction ds generalizing cs with
  | nil => simp [after]
  | cons d ds ih =>
    have hstep : (ofText cs).after (d :: ds) = ((ofText cs).advance d).after ds := rfl
    rw [hstep, advance_ofText, ih, List.append_assoc, List.singleton_append]

theorem offset_ofText_le_append (cs ds : List Char) :
    (ofText cs).offset ≤ (ofText (cs ++ ds)).offset := by
  simp [ofText]

end Position

/-- As many bytes as the characters take lead behind the last of them. -/
theorem seek_byteLength (passed cs ds : List Char) :
    seek (byteLength cs) passed (cs ++ ds) = (cs.reverse ++ passed, ds) := by
  induction cs generalizing passed with
  | nil =>
    cases ds with
    | nil => simp [seek]
    | cons d ds =>
      have hd : ¬d.utf8Size ≤ 0 := Nat.not_le.2 d.utf8Size_pos
      simp [seek, hd]
  | cons c cs ih =>
    have hle : c.utf8Size ≤ byteLength (c :: cs) := by simp
    have hrest : byteLength (c :: cs) - c.utf8Size = byteLength cs := by simp
    rw [List.cons_append, seek, if_pos hle, hrest, ih]
    simp

/-- The slice between two counted positions is what stands between them. -/
theorem Source.slice_eq_some {source : Source} {before covered behind : List Char} {span : Span}
    (h : source.chars = before ++ covered ++ behind) (hstart : span.start = .ofText before)
    (hstop : span.stop = .ofText (before ++ covered)) :
    source.slice span = some (.ofList covered) := by
  have hoffset : span.start.offset = byteLength before := by rw [hstart]; rfl
  have hlength : span.length = byteLength covered := by
    have hstopOffset : span.stop.offset = byteLength before + byteLength covered := by
      rw [hstop]
      exact byteLength_append before covered
    rw [Span.length, hstopOffset, hoffset]
    omega
  rw [slice, h, List.append_assoc, hoffset, hlength, seek_byteLength]
  simp only [seek_byteLength]
  simp

end FunImp
