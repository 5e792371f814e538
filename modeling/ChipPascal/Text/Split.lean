/-!
# Cutting text at a character
-/

namespace ChipPascal

/-- The pieces between the places of `sep`: one more than there are such places. -/
def splitAtChar (sep : Char) : List Char → List (List Char)
  | [] => [[]]
  | c :: cs =>
    if c = sep then [] :: splitAtChar sep cs
    else
      match splitAtChar sep cs with
      | [] => [[c]]
      | piece :: pieces => (c :: piece) :: pieces

def splitLines (text : List Char) : List (List Char) := splitAtChar '\n' text

end ChipPascal
