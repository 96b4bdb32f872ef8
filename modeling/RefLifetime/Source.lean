/-!
# Places in the source text
-/

namespace RefLifetime

/-- A point of the source text. -/
structure Position where
  offset : Nat
  /-- Counted from 1. -/
  line : Nat := 1
  deriving DecidableEq, Repr, Inhabited

/-- A position is written as its offset. -/
def Position.text (p : Position) : String := p.offset.repr

/-- A stretch of the source text. -/
structure Span where
  start : Position
  stop : Position
  deriving DecidableEq, Repr, Inhabited

namespace Span

/-- The stretch between two offsets of the first line. -/
def ofOffsets (start stop : Nat) : Span := ⟨⟨start, 1⟩, ⟨stop, 1⟩⟩

/-- The stretch between two offsets of one line. -/
def onLine (line start stop : Nat) : Span := ⟨⟨start, line⟩, ⟨stop, line⟩⟩

/-- The line a stretch begins on. -/
def line (s : Span) : Nat := s.start.line

end Span

end RefLifetime
