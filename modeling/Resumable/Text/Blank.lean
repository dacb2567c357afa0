/-!
This module contains the code points that separate one token from the next, and the ranges that
larger tables of code points are made of.
-/

namespace Resumable.Text

abbrev Ranges := List (Nat × Nat)

def Ranges.contains (ranges : Ranges) (code : Nat) : Bool :=
  match ranges.find? (fun range => code ≤ range.2) with
  | some range => range.1 ≤ code
  | none => false

def whiteSpace : Ranges :=
  [(0x09, 0x0D), (0x20, 0x20), (0x85, 0x85), (0xA0, 0xA0), (0x1680, 0x1680), (0x2000, 0x200A),
   (0x2028, 0x2029), (0x202F, 0x202F), (0x205F, 0x205F), (0x3000, 0x3000)]

def isBlank (c : Char) : Bool :=
  whiteSpace.contains c.toNat

end Resumable.Text
