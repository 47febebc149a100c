/-!
# Source spans

The region of source text that a node of a program covers.
-/

namespace ChocoRV

/-- A region of source text: line and column of its first character, then of its last one.
A node that names no region carries the span of four zeros. -/
structure Span where
  line : UInt32 := 0
  col : UInt32 := 0
  endLine : UInt32 := 0
  endCol : UInt32 := 0
deriving DecidableEq, Repr, Inhabited

namespace Span

/-- Positions are ordered by line, then by column. -/
def posLe (p q : UInt32 × UInt32) : Bool :=
  decide (p.1 < q.1) || (p.1 == q.1 && decide (p.2 ≤ q.2))

/-- The smallest span that covers both. -/
def merge (s t : Span) : Span :=
  let start := if posLe (s.line, s.col) (t.line, t.col) then (s.line, s.col) else (t.line, t.col)
  let stop := if posLe (s.endLine, s.endCol) (t.endLine, t.endCol) then (t.endLine, t.endCol)
    else (s.endLine, s.endCol)
  ⟨start.1, start.2, stop.1, stop.2⟩

/-- The start of a span as messages give it. -/
def text (s : Span) : String :=
  toString s.line ++ ":" ++ toString s.col

end Span

end ChocoRV
