import FunImp.Proofs.Text.Bytes
import FunImp.Proofs.Text.Lines

/-! # Lines by their bytes

The line at an offset can also be found by a scan of the bytes, which goes back to the start of a
character and looks for line feeds on both sides. Wherever the scan cuts the bytes, it cuts them
inside the text and between characters, and the line it finds is `Source.lineAt`. -/

namespace FunImp

/-- Whether a character starts at the byte, or the text ends there. -/
def isBoundary (bytes : List UInt8) (i : Nat) : Bool :=
  match bytes[i]? with
  | some b => decide b.IsUTF8FirstByte
  | none => i == bytes.length

/-- The bytes from `start` up to `stop`. There are none if these lie outside the text or inside a
character. -/
def cut? (bytes : List UInt8) (start stop : Nat) : Option (List UInt8) :=
  if start ≤ stop ∧ isBoundary bytes start ∧ isBoundary bytes stop then
    some ((bytes.take stop).drop start)
  else none

/-- The last boundary up to the byte. -/
def boundaryUpTo (bytes : List UInt8) : Nat → Nat
  | 0 => 0
  | i + 1 => if isBoundary bytes (i + 1) then i + 1 else boundaryUpTo bytes i

/-- The bytes between the last line feed in front of the offset and the first one behind it. -/
def scanLine? (bytes : List UInt8) (offset : Nat) : Option (List UInt8) := do
  let place := boundaryUpTo bytes (min offset bytes.length)
  let front ← cut? bytes 0 place
  let behind ← cut? bytes place bytes.length
  cut? bytes (place - front.reverse.idxOf 10) (place + behind.idxOf 10)

section Boundaries

variable {front coming : List Char}

theorem isBoundary_byteLength (front coming : List Char) :
    isBoundary (utf8 (front ++ coming)) (byteLength front) = true := by
  unfold isBoundary
  rw [utf8_append, List.getElem?_append_right (Nat.le_of_eq (length_utf8 front)), length_utf8,
    Nat.sub_self]
  cases coming with
  | nil => simp
  | cons c rest =>
    have hpos : 0 < (String.utf8EncodeChar c).length := by
      rw [String.length_utf8EncodeChar]
      exact c.utf8Size_pos
    rw [utf8_cons, List.getElem?_append_left hpos, List.getElem?_eq_getElem hpos]
    exact decide_eq_true UInt8.isUTF8FirstByte_getElem_zero_utf8EncodeChar

/-- No character starts inside another one. -/
theorem isBoundary_inside (front : List Char) {c : Char} (rest : List Char) {k : Nat} (hk : 0 < k)
    (hlt : k < c.utf8Size) :
    isBoundary (utf8 (front ++ c :: rest)) (byteLength front + k) = false := by
  have hlength : k < (String.utf8EncodeChar c).length := by
    rw [String.length_utf8EncodeChar]
    exact hlt
  unfold isBoundary
  rw [utf8_append, ← length_utf8 front, List.getElem?_append_right (Nat.le_add_right _ _),
    Nat.add_sub_cancel_left, utf8_cons, List.getElem?_append_left hlength,
    List.getElem?_eq_getElem hlength]
  apply decide_eq_false
  rw [UInt8.isUTF8FirstByte_getElem_utf8EncodeChar]
  omega

theorem cut?_utf8 (front covered behind : List Char) :
    cut? (utf8 (front ++ covered ++ behind)) (byteLength front) (byteLength (front ++ covered)) =
      some (utf8 covered) := by
  have hstart : isBoundary (utf8 (front ++ covered ++ behind)) (byteLength front) = true := by
    rw [List.append_assoc]
    exact isBoundary_byteLength _ _
  have hle : byteLength front ≤ byteLength (front ++ covered) := by simp
  rw [cut?, if_pos ⟨hle, hstart, isBoundary_byteLength _ _⟩, utf8_append,
    List.take_left' (length_utf8 _), utf8_append, List.drop_left' (length_utf8 _)]

theorem boundaryUpTo_eq {bytes : List UInt8} {i j : Nat} (hj : isBoundary bytes j = true)
    (hle : j ≤ i) (hnone : ∀ k, j < k → k ≤ i → isBoundary bytes k = false) :
    boundaryUpTo bytes i = j := by
  induction i with
  | zero => exact (Nat.le_zero.1 hle).symm
  | succ i ih =>
    rw [boundaryUpTo]
    rcases Nat.eq_or_lt_of_le hle with rfl | hlt
    · rw [if_pos hj]
    · rw [hnone (i + 1) hlt (Nat.le_refl _), if_neg Bool.false_ne_true]
      exact ih (Nat.le_of_lt_succ hlt) fun k hjk hki => hnone k hjk (Nat.le_succ_of_le hki)

end Boundaries

/-- The offset leads to the place between the characters, or into the first one behind it. With
nothing behind it, the offset may lie outside the text. -/
structure LeadsTo (offset : Nat) (front coming : List Char) : Prop where
  le : byteLength front ≤ offset
  lt : ∀ c ∈ coming.head?, offset < byteLength front + c.utf8Size

theorem exists_leadsTo (offset : Nat) (cs : List Char) :
    ∃ front coming, cs = front ++ coming ∧ LeadsTo offset front coming := by
  induction cs generalizing offset with
  | nil => exact ⟨[], [], rfl, Nat.zero_le _, nofun⟩
  | cons c cs ih =>
    by_cases hc : c.utf8Size ≤ offset
    · obtain ⟨front, coming, rfl, hle, hlt⟩ := ih (offset - c.utf8Size)
      refine ⟨c :: front, coming, rfl, ?_, ?_⟩
      · rw [byteLength_cons]
        omega
      · intro d hd
        have hd := hlt d hd
        rw [byteLength_cons]
        omega
    · refine ⟨[], c :: cs, rfl, Nat.zero_le _, ?_⟩
      rintro _ ⟨⟩
      rw [byteLength_nil]
      omega

namespace LeadsTo

variable {offset : Nat} {front coming : List Char}

theorem seek_eq (h : LeadsTo offset front coming) (passed : List Char) :
    seek offset passed (front ++ coming) = (front.reverse ++ passed, coming) := by
  obtain ⟨hle, hlt⟩ := h
  induction front generalizing offset passed with
  | nil =>
    cases coming with
    | nil => rfl
    | cons c coming =>
      have hc : ¬c.utf8Size ≤ offset := by
        have hc := hlt c rfl
        rw [byteLength_nil] at hc
        omega
      rw [List.nil_append, seek, if_neg hc]
      rfl
  | cons c front ih =>
    rw [byteLength_cons] at hle hlt
    have hc : c.utf8Size ≤ offset := by omega
    have hrest : ∀ d ∈ coming.head?, offset - c.utf8Size < byteLength front + d.utf8Size := by
      intro d hd
      have hd := hlt d hd
      omega
    rw [List.cons_append, seek, if_pos hc, ih _ (by omega) hrest, List.reverse_cons,
      List.append_assoc]
    rfl

theorem boundaryUpTo_min (h : LeadsTo offset front coming) :
    boundaryUpTo (utf8 (front ++ coming)) (min offset (utf8 (front ++ coming)).length) =
      byteLength front := by
  have hlength : (utf8 (front ++ coming)).length = byteLength front + byteLength coming := by
    rw [length_utf8, byteLength_append]
  have hle := h.le
  apply boundaryUpTo_eq (isBoundary_byteLength front coming)
  · omega
  · intro k hk hki
    cases coming with
    | nil =>
      rw [byteLength_nil] at hlength
      omega
    | cons c rest =>
      have hlt := h.lt c rfl
      obtain ⟨n, rfl⟩ := Nat.exists_eq_add_of_lt hk
      rw [Nat.add_assoc]
      apply isBoundary_inside
      · omega
      · omega

/-- In front of the offset there are the line feeds of the characters in front of it: the bytes of
a character that is begun hold none. -/
theorem count_take (h : LeadsTo offset front coming) :
    ((utf8 (front ++ coming)).take offset).count 10 = front.count '\n' := by
  have hle := h.le
  rw [utf8_append, List.take_append, List.take_of_length_le (by rw [length_utf8]; exact hle),
    List.count_append, count_lineFeed_utf8, length_utf8]
  have hrest : 10 ∉ (utf8 coming).take (offset - byteLength front) := by
    cases coming with
    | nil => simp
    | cons c rest =>
      have hlt := h.lt c rfl
      have hshort : offset - byteLength front < (String.utf8EncodeChar c).length := by
        rw [String.length_utf8EncodeChar]
        omega
      rw [utf8_cons, List.take_append_of_le_length (Nat.le_of_lt hshort)]
      intro hmem
      have hc := lineFeed_mem_utf8EncodeChar.1 (List.mem_of_mem_take hmem)
      subst hc
      rw [Nat.lt_one_iff.1 hshort] at hmem
      cases hmem
  rw [List.count_eq_zero_of_not_mem hrest, Nat.add_zero]

end LeadsTo

theorem exists_eq_append_lastRow (cs : List Char) :
    ∃ earlier, cs = earlier ++ lastRow cs ∧
      (utf8 cs).reverse.idxOf 10 = byteLength (lastRow cs) := by
  by_cases hmem : '\n' ∈ cs
  · obtain ⟨earlier, hcs, hfree⟩ := exists_lastRow_of_mem hmem
    have hbytes : 10 ∉ (utf8 (lastRow cs)).reverse := by
      rw [List.mem_reverse, lineFeed_mem_utf8]
      exact hfree
    refine ⟨earlier ++ ['\n'], by rw [List.append_assoc]; exact hcs, ?_⟩
    conv_lhs => rw [hcs]
    rw [utf8_append, utf8_cons, List.reverse_append, List.reverse_append, List.append_assoc,
      List.idxOf_append_of_notMem hbytes, List.length_reverse, length_utf8]
    exact Nat.add_zero _
  · have hbytes : 10 ∉ (utf8 cs).reverse := by
      rw [List.mem_reverse, lineFeed_mem_utf8]
      exact hmem
    refine ⟨[], (lastRow_of_not_mem hmem).symm, ?_⟩
    rw [List.idxOf_eq_length_iff.2 hbytes, List.length_reverse, length_utf8,
      lastRow_of_not_mem hmem]

theorem exists_eq_firstRow_append (cs : List Char) :
    ∃ later, cs = firstRow cs ++ later ∧ (utf8 cs).idxOf 10 = byteLength (firstRow cs) := by
  by_cases hmem : '\n' ∈ cs
  · obtain ⟨later, hcs, hfree⟩ := exists_firstRow_of_mem hmem
    have hbytes : 10 ∉ utf8 (firstRow cs) := mt lineFeed_mem_utf8.1 hfree
    refine ⟨'\n' :: later, hcs, ?_⟩
    conv_lhs => rw [hcs]
    rw [utf8_append, List.idxOf_append_of_notMem hbytes, length_utf8, utf8_cons]
    exact Nat.add_zero _
  · refine ⟨[], by rw [firstRow_of_not_mem hmem, List.append_nil], ?_⟩
    rw [List.idxOf_eq_length_iff.2 (mt lineFeed_mem_utf8.1 hmem), length_utf8,
      firstRow_of_not_mem hmem]

theorem scanLine?_eq {offset : Nat} {front coming : List Char}
    (h : LeadsTo offset front coming) :
    scanLine? (utf8 (front ++ coming)) offset = some (utf8 (lastRow front ++ firstRow coming)) := by
  obtain ⟨earlier, hfront, hlast⟩ := exists_eq_append_lastRow front
  obtain ⟨later, hcoming, hfirst⟩ := exists_eq_firstRow_append coming
  have hcutFront : cut? (utf8 (front ++ coming)) 0 (byteLength front) = some (utf8 front) :=
    cut?_utf8 [] front coming
  have hcutComing : cut? (utf8 (front ++ coming)) (byteLength front)
      (utf8 (front ++ coming)).length = some (utf8 coming) := by
    have hcut := cut?_utf8 front coming []
    rw [List.append_nil] at hcut
    rw [length_utf8]
    exact hcut
  have hcutLine := cut?_utf8 earlier (lastRow front ++ firstRow coming) later
  have htext : earlier ++ (lastRow front ++ firstRow coming) ++ later = front ++ coming := by
    conv_rhs => rw [hfront, hcoming]
    simp only [List.append_assoc]
  have hlength := congrArg byteLength hfront
  rw [byteLength_append] at hlength
  have hstart : byteLength front - byteLength (lastRow front) = byteLength earlier := by omega
  have hstop : byteLength front + byteLength (firstRow coming) =
      byteLength (earlier ++ (lastRow front ++ firstRow coming)) := by
    simp only [byteLength_append]
    omega
  simp only [scanLine?, h.boundaryUpTo_min, hcutFront, hcutComing, Option.bind_eq_bind,
    Option.bind_some, hlast, hfirst, hstart, hstop]
  rw [← htext]
  exact hcutLine

namespace Source

/-- The line at any offset, inside the text or behind it, between characters or inside one: the scan
finds it without a cut that fails, and it is the line whose number is that of the line feeds in
front of the offset. -/
theorem lineAt_scanned (source : Source) (offset : Nat) :
    let bytes := utf8 source.chars
    scanLine? bytes offset = some (utf8 (source.lineAt offset).toList) ∧
      source.lines[(bytes.take (min offset bytes.length)).count 10]? =
        some (source.lineAt offset) := by
  intro bytes
  obtain ⟨front, coming, hchars, h⟩ := exists_leadsTo offset source.chars
  have hline : source.lineAt offset = .ofList (lastRow front ++ firstRow coming) := by
    rw [lineAt, hchars, h.seek_eq, List.append_nil]
    rfl
  have hsame : source.lineAt offset = source.lineAt (byteLength front) := by
    rw [hline, lineAt_byteLength hchars]
  constructor
  · rw [hline, String.toList_ofList, ← scanLine?_eq h, ← hchars]
  · rw [← List.take_eq_take_min, hsame, ← getElem?_lines hchars, ← h.count_take, ← hchars]

end Source

end FunImp
