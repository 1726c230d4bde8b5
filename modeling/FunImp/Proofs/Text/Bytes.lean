import FunImp.Proofs.Text.Positions

/-! # Texts as bytes

The bytes of a text are those of its characters one after the other. A byte of ASCII is a character
of its own wherever it stands, so line feeds and carriage returns are seen in the bytes. -/

namespace FunImp

/-- The bytes of the characters. -/
def utf8 (cs : List Char) : List UInt8 := cs.flatMap String.utf8EncodeChar

@[simp] theorem utf8_nil : utf8 [] = [] := rfl

@[simp] theorem utf8_cons (c : Char) (cs : List Char) :
    utf8 (c :: cs) = String.utf8EncodeChar c ++ utf8 cs := rfl

@[simp] theorem utf8_append (cs ds : List Char) : utf8 (cs ++ ds) = utf8 cs ++ utf8 ds :=
  List.flatMap_append

@[simp] theorem length_utf8 (cs : List Char) : (utf8 cs).length = byteLength cs := by
  induction cs with
  | nil => rfl
  | cons c cs ih =>
    rw [utf8_cons, List.length_append, String.length_utf8EncodeChar, ih, byteLength_cons]

theorem toUTF8_eq (text : String) : text.toUTF8 = (utf8 text.toList).toByteArray := by
  rw [String.toUTF8_eq_toByteArray, ← String.utf8Encode_toList]
  rfl

private theorem topBit_or (x : UInt8) {k : UInt8} (h : k &&& 0x80 ≠ 0) :
    (x ||| k) &&& 0x80 ≠ 0 := by
  intro hzero
  apply h
  apply UInt8.toNat_inj.1
  have hnat := congrArg UInt8.toNat hzero
  rw [UInt8.toNat_and, UInt8.toNat_or, Nat.and_or_distrib_right] at hnat
  rw [UInt8.toNat_and]
  exact (Nat.or_eq_zero_iff.1 hnat).2

/-- A character of more than one byte has no byte of ASCII. -/
private theorem topBit_of_mem {c : Char} (h : c.utf8Size ≠ 1) :
    ∀ b ∈ String.utf8EncodeChar c, b &&& 0x80 ≠ 0 := by
  have hpos := c.utf8Size_pos
  have hle := c.utf8Size_le_four
  obtain hsize | hsize | hsize : c.utf8Size = 2 ∨ c.utf8Size = 3 ∨ c.utf8Size = 4 := by omega
  · rw [String.utf8EncodeChar_eq_cons_cons hsize]
    simp only [List.forall_mem_cons]
    exact ⟨topBit_or _ (by decide), topBit_or _ (by decide), List.forall_mem_nil _⟩
  · rw [String.utf8EncodeChar_eq_cons_cons_cons hsize]
    simp only [List.forall_mem_cons]
    exact ⟨topBit_or _ (by decide), topBit_or _ (by decide), topBit_or _ (by decide),
      List.forall_mem_nil _⟩
  · rw [String.utf8EncodeChar_eq_cons_cons_cons_cons hsize]
    simp only [List.forall_mem_cons]
    exact ⟨topBit_or _ (by decide), topBit_or _ (by decide), topBit_or _ (by decide),
      topBit_or _ (by decide), List.forall_mem_nil _⟩

private theorem utf8EncodeChar_injective {c d : Char}
    (h : String.utf8EncodeChar c = String.utf8EncodeChar d) : c = d := by
  have hc := @ByteArray.utf8DecodeChar?_utf8EncodeChar_append ByteArray.empty c
  rw [h, ByteArray.utf8DecodeChar?_utf8EncodeChar_append] at hc
  exact (Option.some.inj hc).symm

/-- A byte of ASCII stands in no other character than its own. -/
theorem eq_of_mem_utf8EncodeChar {c d : Char} {b : UInt8} (hd : String.utf8EncodeChar d = [b])
    (hb : b &&& 0x80 = 0) (h : b ∈ String.utf8EncodeChar c) : c = d := by
  have hsize : c.utf8Size = 1 := by
    by_contra hsize
    exact topBit_of_mem hsize b h hb
  apply utf8EncodeChar_injective
  rw [String.utf8EncodeChar_eq_singleton hsize] at h ⊢
  rw [hd, List.mem_singleton.1 h]

theorem lineFeed_mem_utf8EncodeChar {c : Char} : 10 ∈ String.utf8EncodeChar c ↔ c = '\n' := by
  constructor
  · exact eq_of_mem_utf8EncodeChar rfl rfl
  · rintro rfl
    exact List.mem_cons_self

@[simp] theorem lineFeed_mem_utf8 {cs : List Char} : 10 ∈ utf8 cs ↔ '\n' ∈ cs := by
  rw [utf8, List.mem_flatMap]
  constructor
  · rintro ⟨c, hc, h⟩
    exact lineFeed_mem_utf8EncodeChar.1 h ▸ hc
  · exact fun h => ⟨'\n', h, List.mem_cons_self⟩

theorem count_lineFeed_utf8 (cs : List Char) : (utf8 cs).count 10 = cs.count '\n' := by
  induction cs with
  | nil => rfl
  | cons c cs ih =>
    rw [utf8_cons, List.count_append, ih, List.count_cons, Nat.add_comm]
    apply congrArg (cs.count '\n' + ·)
    by_cases hc : c = '\n'
    · subst hc
      rfl
    · rw [List.count_eq_zero_of_not_mem (mt lineFeed_mem_utf8EncodeChar.1 hc)]
      simp [hc]

end FunImp
