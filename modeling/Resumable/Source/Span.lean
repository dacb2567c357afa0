/-!
This module contains places in a source text: single positions, and the spans that forms and
instructions remember.
-/

namespace Resumable

structure Position where
  offset : Nat
  line : Nat
  col : Nat
  deriving Repr, DecidableEq, Inhabited

namespace Position

def start : Position :=
  { offset := 0, line := 1, col := 1 }

def advance (p : Position) (c : Char) : Position :=
  if c = '\n' then
    { offset := p.offset + c.utf8Size, line := p.line + 1, col := 1 }
  else
    { offset := p.offset + c.utf8Size, line := p.line, col := p.col + 1 }

def advanceOver (p : Position) (text : List Char) : Position :=
  text.foldl advance p

end Position

structure Span where
  start : Nat
  stop : Nat
  line : Nat
  col : Nat
  file : Option String := none
  deriving Repr, DecidableEq, Inhabited

namespace Span

def synthetic : Span :=
  { start := 0, stop := 0, line := 0, col := 0 }

def isSynthetic (s : Span) : Bool :=
  s.line == 0

def between (first : Position) (stop : Nat) : Span :=
  { start := first.offset, stop := stop, line := first.line % 0x100000000,
    col := first.col % 0x100000000 }

def startsBy (s t : Span) : Bool :=
  s.line < t.line || (s.line == t.line && s.col ≤ t.col)

def merge (s t : Span) : Span :=
  let first := if s.startsBy t then s else t
  { start := min s.start t.start
    stop := max s.stop t.stop
    line := first.line
    col := first.col
    file := s.file.or t.file }

def render (s : Span) : String :=
  match s.file with
  | some file => s!"{file}:{s.line}:{s.col}"
  | none => s!"{s.line}:{s.col}"

end Span

end Resumable
