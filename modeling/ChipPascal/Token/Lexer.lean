import ChipPascal.Diagnostic
import ChipPascal.Source.LineIndex
import ChipPascal.Token

/-!
# From characters to tokens

A text is cut into lexemes: tokens, runs of blanks, comments and characters that begin nothing.
The lexemes put together are the text again (`flatMap_text_lexemes`), so every character is
accounted for. Tokens and errors are read off the lexemes once these are placed.
-/

namespace ChipPascal

inductive LexemeKind where
  | token (kind : TokenKind)
  | blank
  | comment
  | illegal
deriving DecidableEq, Repr

/-- A piece of the text that stands for one thing. -/
structure Lexeme where
  kind : LexemeKind
  text : List Char
deriving DecidableEq, Repr

namespace Lexer

def isBlank (c : Char) : Bool := c = ' ' || c = '\t' || c = '\r' || c = '\n'

def isIdentStart (c : Char) : Bool := c.isAlpha || c = '_'

def isIdentPart (c : Char) : Bool := c.isAlphanum || c = '_'

def wordKind (word : String) : TokenKind := (TokenKind.keyword? word).getD .ident

def symbol? (c : Char) : Option TokenKind :=
  match c with
  | '+' => some .plus
  | '-' => some .minus
  | '*' => some .star
  | '/' => some .slash
  | ':' => some .colon
  | '(' => some .lparen
  | ')' => some .rparen
  | ',' => some .comma
  | '.' => some .dot
  | ';' => some .semicolon
  | _ => none

/-- Splits after the first star that a slash follows; without one, everything is taken. -/
def splitStarSlash : List Char → List Char × List Char
  | [] => ([], [])
  | [c] => ([c], [])
  | c :: d :: cs =>
    if c = '*' ∧ d = '/' then ([c, d], cs)
    else ((splitStarSlash (d :: cs)).map (c :: ·) id)

/-- Splits after the first closing brace; without one, everything is taken. -/
def splitBrace : List Char → List Char × List Char
  | [] => ([], [])
  | c :: cs => if c = '}' then ([c], cs) else (splitBrace cs).map (c :: ·) id

/-- The lexeme that begins with `c`: its kind, its further characters, and what follows it. -/
def scan (c : Char) (cs : List Char) : LexemeKind × List Char × List Char :=
  if isBlank c then (.blank, cs.takeWhile isBlank, cs.dropWhile isBlank)
  else if isIdentStart c then
    (.token (wordKind (String.ofList (c :: cs.takeWhile isIdentPart))),
      cs.takeWhile isIdentPart, cs.dropWhile isIdentPart)
  else if c.isDigit then
    (.token .number, cs.takeWhile Char.isDigit, cs.dropWhile Char.isDigit)
  else if c = '{' then (.comment, splitBrace cs)
  else
    match c, cs with
    | '/', '/' :: _ => (.comment, cs.takeWhile (· ≠ '\n'), cs.dropWhile (· ≠ '\n'))
    | '/', '*' :: rest => (.comment, (splitStarSlash rest).map ('*' :: ·) id)
    | ':', '=' :: rest => (.token .becomes, ['='], rest)
    | _, _ =>
      match symbol? c with
      | some kind => (.token kind, [], cs)
      | none => (.illegal, [], cs)

theorem splitStarSlash_append (cs : List Char) :
    (splitStarSlash cs).1 ++ (splitStarSlash cs).2 = cs := by
  fun_induction splitStarSlash cs <;> simp_all

theorem splitBrace_append (cs : List Char) : (splitBrace cs).1 ++ (splitBrace cs).2 = cs := by
  fun_induction splitBrace cs <;> simp_all

/-- Scanning loses nothing. -/
theorem scan_append (c : Char) (cs : List Char) : (scan c cs).2.1 ++ (scan c cs).2.2 = cs := by
  unfold scan
  split
  · simp
  split
  · simp
  split
  · simp
  split
  · exact splitBrace_append cs
  split
  · simp
  · simp [splitStarSlash_append]
  · simp
  · split <;> simp

/-- Each scan takes at least the character it starts with. -/
theorem length_scan_rest (c : Char) (cs : List Char) : (scan c cs).2.2.length ≤ cs.length := by
  have h := congrArg List.length (scan_append c cs)
  simp only [List.length_append] at h
  omega

def lexemes (text : List Char) : List Lexeme :=
  match text with
  | [] => []
  | c :: cs =>
    have := length_scan_rest c cs
    ⟨(scan c cs).1, c :: (scan c cs).2.1⟩ :: lexemes (scan c cs).2.2
termination_by text.length
decreasing_by simp only [List.length_cons]; omega

/-- The lexemes make up the text. -/
theorem flatMap_text_lexemes (text : List Char) : (lexemes text).flatMap (·.text) = text := by
  fun_induction lexemes text with
  | case1 => rfl
  | case2 c cs _ ih => simp [ih, scan_append]

/-- Each lexeme with its span, the first one starting at `start`. -/
def place (start : Nat) : List Lexeme → List (Lexeme × Span)
  | [] => []
  | l :: ls =>
    let stop := start + byteLength l.text
    (l, ⟨start, stop⟩) :: place stop ls

def token? : Lexeme × Span → Option Token
  | (⟨.token kind, text⟩, span) => some ⟨kind, String.ofList text, span⟩
  | _ => none

def error? : Lexeme × Span → Option Error
  | (⟨.illegal, c :: _⟩, span) => some (.illegalCharacter c span)
  | _ => none

end Lexer

/-- What lexing finds: the tokens, the size of the text, and the characters that begin nothing. -/
structure Tokens where
  list : List Token
  size : Nat
  errors : List Error

def tokenize (source : String) : Tokens :=
  let placed := Lexer.place 0 (Lexer.lexemes source.toList)
  ⟨placed.filterMap Lexer.token?, byteLength source.toList, placed.filterMap Lexer.error?⟩

namespace Tokens

def all (ts : Tokens) : List Token := ts.list ++ [.endOfFile ts.size]

/-- The first `n` tokens, the end mark repeated once the others are spent. -/
def take (ts : Tokens) (n : Nat) : List Token :=
  ts.list.take n ++ List.replicate (n - ts.list.length) (.endOfFile ts.size)

end Tokens

end ChipPascal
