import ChipPascal.Source.Span

/-!
# Tokens

The kinds of token, their fixed spellings, and how a syntax error speaks of them.
-/

namespace ChipPascal

inductive TokenKind where
  | programKw | procedureKw | beginKw | endKw | varKw | constKw | ifKw | thenKw | elseKw
  | ident
  | number
  | plus | minus | star | slash
  | becomes
  | lparen | rparen | comma | dot | colon | semicolon
  | eof
deriving DecidableEq, Repr

namespace TokenKind

/-- The one text a token of this kind can have, if there is only one. -/
def spelling? : TokenKind → Option String
  | programKw => some "program"
  | procedureKw => some "procedure"
  | beginKw => some "begin"
  | endKw => some "end"
  | varKw => some "var"
  | constKw => some "const"
  | ifKw => some "if"
  | thenKw => some "then"
  | elseKw => some "else"
  | plus => some "+"
  | minus => some "-"
  | star => some "*"
  | slash => some "/"
  | becomes => some ":="
  | lparen => some "("
  | rparen => some ")"
  | comma => some ","
  | dot => some "."
  | colon => some ":"
  | semicolon => some ";"
  | ident | number | eof => none

/-- The words that are no identifiers. -/
def keywords : List TokenKind :=
  [programKw, procedureKw, beginKw, endKw, varKw, constKw, ifKw, thenKw, elseKw]

def keyword? (word : String) : Option TokenKind :=
  keywords.find? fun kind => kind.spelling? = some word

/-- The name a syntax error gives to the kind. -/
def describe (kind : TokenKind) : String :=
  match kind with
  | ident => "identifier"
  | number => "integer literal"
  | eof => "end of file"
  | _ => "'" ++ kind.spelling?.getD "" ++ "'"

end TokenKind

/-- A token: its kind, the text it was read from, and where that stands. -/
structure Token where
  kind : TokenKind
  text : String
  span : Span
deriving DecidableEq, Repr

namespace Token

/-- The mark after the last token of a text of `size` bytes. -/
def endOfFile (size : Nat) : Token := ⟨.eof, "", ⟨size, size⟩⟩

def quoted (t : Token) : String :=
  match t.kind with
  | .ident | .number => "'" ++ t.text ++ "'"
  | kind => kind.describe

end Token

end ChipPascal
