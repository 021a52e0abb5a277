/-!
# Source regions

A `Span` is the region of source text that a node was read from.

* Lines and columns count from 1; the end column is one past the last character.
* **Line 0 marks a node that has no place in the text.** Such a span is absorbed by
  every other one, and prints as the whole program.
-/

namespace DecafLang

/-- A region of source text, from `line:col` up to `endLine:endCol`. -/
structure Span where
  line : Nat
  col : Nat
  endLine : Nat
  endCol : Nat
deriving DecidableEq, Repr, Inhabited

namespace Span

/-! ## 1. Building -/

/-- The span of a node that has no place in the text. -/
def nowhere : Span := ⟨0, 0, 0, 0⟩

/-- The empty region at one position. -/
def point (line col : Nat) : Span := ⟨line, col, line, col⟩

/-- Whether the span has no place in the text. -/
def isNowhere (s : Span) : Bool := s.line == 0

/-! ## 2. Joining -/

/-- Whether the first of two positions, read as line and column, comes no later. -/
def before (a b : Nat × Nat) : Bool := a.1 < b.1 || (a.1 == b.1 && a.2 ≤ b.2)

/-- The earlier of two positions. -/
def earlier (a b : Nat × Nat) : Nat × Nat := if before a b then a else b

/-- The later of two positions. -/
def later (a b : Nat × Nat) : Nat × Nat := if before a b then b else a

/-- The smallest region that covers both; a span without a place leaves the other as it is. -/
def join (s t : Span) : Span :=
  if s.isNowhere then t
  else if t.isNowhere then s
  else
    let first := earlier (s.line, s.col) (t.line, t.col)
    let last := later (s.endLine, s.endCol) (t.endLine, t.endCol)
    ⟨first.1, first.2, last.1, last.2⟩

/-! ## 3. Text -/

/-- The start of the region, also of one that has no place. -/
def position (s : Span) : String := s!"{s.line}:{s.col}"

/-- The start of the region; a span without a place speaks of the whole program. -/
def text (s : Span) : String := if s.isNowhere then "<program>" else s.position

end Span

end DecafLang
