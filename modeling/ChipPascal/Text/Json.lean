/-!
# JSON text

Values are printed over several lines, two blanks deeper at each level; an empty list or record
stays on its line. Fields keep their order.
-/

namespace ChipPascal

inductive Json where
  | null
  | bool (value : Bool)
  | nat (value : Nat)
  | string (value : String)
  | list (items : List Json)
  | record (fields : List (String × Json))

namespace Json

def hexByte (n : Nat) : String := String.ofList [Nat.digitChar (n / 16), Nat.digitChar (n % 16)]

/-- A character inside a string: quotes, backslashes and control characters are escaped. -/
def escapeChar (c : Char) : String :=
  match c with
  | '"' => "\\\""
  | '\\' => "\\\\"
  | '\n' => "\\n"
  | '\r' => "\\r"
  | '\t' => "\\t"
  | c =>
    if c.toNat = 8 then "\\b"
    else if c.toNat = 12 then "\\f"
    else if c.toNat < 32 then "\\u00" ++ hexByte c.toNat
    else String.singleton c

def quote (s : String) : String := "\"" ++ String.join (s.toList.map escapeChar) ++ "\""

def indent (depth : Nat) : String := String.ofList (List.replicate (2 * depth) ' ')

/-- Items between brackets, each on a line of its own at `depth` plus one. -/
def enclose (left right : String) (depth : Nat) (items : List String) : String :=
  if items.isEmpty then left ++ right
  else
    let lines := items.map (indent (depth + 1) ++ ·)
    left ++ "\n" ++ String.intercalate ",\n" lines ++ "\n" ++ indent depth ++ right

mutual

/-- The text of a value whose first line stands at `depth`. -/
def prettyAt (depth : Nat) : Json → String
  | null => "null"
  | bool value => if value then "true" else "false"
  | nat value => toString value
  | string value => quote value
  | list items => enclose "[" "]" depth (prettyItems (depth + 1) items)
  | record fields => enclose "\x7b" "\x7d" depth (prettyFields (depth + 1) fields)

def prettyItems (depth : Nat) : List Json → List String
  | [] => []
  | item :: items => prettyAt depth item :: prettyItems depth items

def prettyFields (depth : Nat) : List (String × Json) → List String
  | [] => []
  | (name, value) :: fields =>
    (quote name ++ ": " ++ prettyAt depth value) :: prettyFields depth fields

end

def pretty (j : Json) : String := j.prettyAt 0

end Json

end ChipPascal
