/-!
# Numbers in base sixteen and padded text
-/

namespace ChipPascal

/-- Puts `fill` before `s` until it has `width` characters. -/
def padLeft (fill : Char) (width : Nat) (s : String) : String :=
  String.ofList (List.replicate (width - s.length) fill) ++ s

/-- Puts blanks after `s` until it has `width` characters. -/
def padRight (width : Nat) (s : String) : String :=
  s ++ String.ofList (List.replicate (width - s.length) ' ')

def hexLower (n : Nat) : String := String.ofList (Nat.toDigits 16 n)

def hexUpper (n : Nat) : String := String.ofList ((Nat.toDigits 16 n).map Char.toUpper)

end ChipPascal
