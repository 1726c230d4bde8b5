/-!
# Places in a text

A position says what stands before a place: how many bytes of UTF-8, and with them the row and
the column that an editor shows, both counted from one. `Position.after` moves over characters
one by one. `Position.ofText` counts in the whole text before the place instead.
-/

namespace FunImp

/-- A place in a text. Offsets count bytes; columns count characters. -/
structure Position where
  offset : Nat
  row : Nat
  column : Nat
deriving DecidableEq

def byteLength (cs : List Char) : Nat :=
  cs.foldl (fun n c => n + c.utf8Size) 0

namespace Position

def origin : Position := ⟨0, 1, 1⟩

instance : Inhabited Position := ⟨origin⟩

/-- The place right after `c`, which stands at `p`. A line feed ends its row. -/
def advance (p : Position) (c : Char) : Position :=
  if c = '\n' then ⟨p.offset + c.utf8Size, p.row + 1, 1⟩
  else ⟨p.offset + c.utf8Size, p.row, p.column + 1⟩

/-- The place right after the characters that start at `p`. -/
def after (p : Position) (cs : List Char) : Position :=
  cs.foldl advance p

theorem offset_le_advance (p : Position) (c : Char) : p.offset ≤ (p.advance c).offset := by
  unfold advance; split <;> simp

theorem offset_le_after (p : Position) (cs : List Char) : p.offset ≤ (p.after cs).offset := by
  induction cs generalizing p with
  | nil => exact Nat.le_refl _
  | cons c cs ih => exact Nat.le_trans (offset_le_advance p c) (ih (p.advance c))

/-- The place at the end of `cs`, counted without moving over it: rows are line feeds, and
columns are the characters behind the last one. -/
def ofText (cs : List Char) : Position where
  offset := byteLength cs
  row := 1 + cs.count '\n'
  column := 1 + (cs.reverse.takeWhile (· ≠ '\n')).length

def render (p : Position) : String :=
  toString p.row ++ ":" ++ toString p.column

end Position

end FunImp
