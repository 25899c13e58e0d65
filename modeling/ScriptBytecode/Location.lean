/-!
# Source locations
-/

namespace ScriptBytecode

/-- A place in the source text. Line and column count from one; line zero is an unknown place. -/
structure Location where
  line : Nat
  column : Nat
  offset : Nat
deriving DecidableEq, Inhabited

namespace Location

def unknown : Location := ⟨0, 0, 0⟩

def text (l : Location) : String :=
  toString l.line ++ ":" ++ toString l.column

end Location

/-- The stretch of source text that a node was read from. -/
structure Span where
  start : Location
  stop : Location
deriving DecidableEq, Inhabited

namespace Span

def unknown : Span := ⟨.unknown, .unknown⟩

/-- The span from the earlier start to the later stop. When the offsets are equal the second
span's location is taken. -/
def merge (a b : Span) : Span where
  start := if a.start.offset < b.start.offset then a.start else b.start
  stop := if a.stop.offset > b.stop.offset then a.stop else b.stop

end Span

end ScriptBytecode
