import FunImp.Text.Position

/-!
# Stretches of a text

A span runs from one position to a later one. Two spans join to the stretch from the earlier
start to the later stop.
-/

namespace FunImp

structure Span where
  start : Position
  stop : Position
  ordered : start.offset ≤ stop.offset
deriving DecidableEq

namespace Span

def point (p : Position) : Span := ⟨p, p, Nat.le_refl _⟩

instance : Inhabited Span := ⟨point .origin⟩

def covering (p : Position) (cs : List Char) : Span :=
  ⟨p, p.after cs, p.offset_le_after cs⟩

def length (s : Span) : Nat := s.stop.offset - s.start.offset

def isEmpty (s : Span) : Bool := s.length == 0

def finish (s : Span) : Span := point s.stop

/-- From the start of `s` to the later of both stops; `t` starts no earlier than `s`. If both
stop at the same offset the stop of `t` is taken. -/
def extend (s t : Span) : Span :=
  if h : s.stop.offset ≤ t.stop.offset then
    ⟨s.start, t.stop, Nat.le_trans s.ordered h⟩
  else s

/-- The least span that covers both. -/
def join (s t : Span) : Span :=
  if s.start.offset ≤ t.start.offset then s.extend t else t.extend s

/-- All spans joined from left to right; no span at all joins to the start of the text. -/
def joinAll : List Span → Span
  | [] => default
  | s :: rest => rest.foldl join s

def render (s : Span) : String :=
  "(" ++ s.start.render ++ ", " ++ s.stop.render ++ ")"

end Span

end FunImp
