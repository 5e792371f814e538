import ChipPascal.Text.Hex
import ChipPascal.Text.Unprintable

/-!
# Quoted text

Text between double quotes, so that every character can be told: quotes, backslashes and the
common controls have short forms, other unprintable characters are given by their code point.
-/

namespace ChipPascal.Quoted

def escapeChar (c : Char) : String :=
  match c with
  | '"' => "\\\""
  | '\\' => "\\\\"
  | '\n' => "\\n"
  | '\r' => "\\r"
  | '\t' => "\\t"
  | '\x00' => "\\0"
  | c =>
    if isUnprintable c then "\\u\x7b" ++ hexLower c.toNat ++ "\x7d" else String.singleton c

def text (s : String) : String := "\"" ++ String.join (s.toList.map escapeChar) ++ "\""

def list (items : List String) : String := "[" ++ String.intercalate ", " (items.map text) ++ "]"

end ChipPascal.Quoted
