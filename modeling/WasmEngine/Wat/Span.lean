/-!
# Positions in a source

A position counts bytes from the start, lines from one, and characters within the line from one.  Lines and
characters are counted in 32 bits.  Where a count has no room left, the position remembers that; a program
that checks its arithmetic ends there.  That takes a source of 4 GiB: in a shorter one a program that does not check
counts the same.
-/

namespace WasmEngine.Wat

/-- A number of 32 bits is a natural number. -/
instance instCoeUInt32Nat : Coe UInt32 Nat := ⟨UInt32.toNat⟩

/-- A place between two characters, and whether a count on the way to it had no room. -/
structure Position where
  offset : Nat
  line : UInt32
  column : UInt32
  overflow : Bool
  deriving DecidableEq, Repr

/-- A stretch of the source; line and column belong to its start. -/
structure Span where
  start : Nat
  stop : Nat
  line : UInt32
  column : UInt32
  deriving DecidableEq, Repr

namespace Position

/-- The start of a source. -/
def origin : Position := ⟨0, 1, 1, false⟩

/-- The position after one more character.  A count wraps to zero where it has no room. -/
def step (p : Position) (c : Char) : Position :=
  if c = '\n' then ⟨p.offset + c.utf8Size, p.line + 1, 1, p.overflow || p.line + 1 == 0⟩
  else ⟨p.offset + c.utf8Size, p.line, p.column + 1, p.overflow || p.column + 1 == 0⟩

/-- The position after more characters. -/
def steps (p : Position) (cs : List Char) : Position := cs.foldl step p

/-- The stretch up to a later position. -/
def spanTo (p q : Position) : Span := ⟨p.offset, q.offset, p.line, p.column⟩

/-- The empty stretch at a position. -/
def spanHere (p : Position) : Span := p.spanTo p

end Position

/-- A position together with the characters after it. -/
structure Cursor where
  pos : Position
  rest : List Char
  deriving Repr

namespace Cursor

/-- The start of a source. -/
def start (source : String) : Cursor := ⟨.origin, source.toList⟩

/-- The cursor `n` characters further on. -/
def advance (c : Cursor) (n : Nat) : Cursor := ⟨c.pos.steps (c.rest.take n), c.rest.drop n⟩

/-- The longest run of characters that satisfy `p`. -/
def run (c : Cursor) (p : Char → Bool) : List Char := c.rest.takeWhile p

/-- The cursor after the longest run of characters that satisfy `p`. -/
def afterRun (c : Cursor) (p : Char → Bool) : Cursor :=
  ⟨c.pos.steps (c.run p), c.rest.dropWhile p⟩

end Cursor

end WasmEngine.Wat
