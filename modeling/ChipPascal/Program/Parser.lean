import ChipPascal.Program.StmtParser
import ChipPascal.Token.Lexer

/-!
# Reading programs

A tree always comes out. Where declarations or the body are broken, the errors say so and the
tree holds what could be read.
-/

namespace ChipPascal

namespace Cursor

def readIdent (s : Cursor) : Reply Ident s := (s.expect .ident).map fun t => ⟨t.text, t.span⟩

/-- `name: type`, as in a parameter. -/
def readTyped (s : Cursor) (isConst : Bool) : Reply VarDecl s :=
  s.readIdent.andThen (le_refl s) fun name s₁ h₁ =>
  (s₁.expect .colon).andThen (le_of_lt h₁) fun _ s₂ h₂ =>
  (s₂.expectAs .ident "type specifier").andThen (le_of_lt_of_lt h₂ h₁) fun t s₃ h₃ =>
    .done ⟨name, ⟨t.text, t.span⟩, isConst⟩ s₃ (lt_trans₃ h₃ h₂ h₁)

def readVarDecl (s : Cursor) (isConst : Bool) : Reply VarDecl s :=
  (s.readTyped isConst).andThen (le_refl s) fun decl s₁ h₁ =>
  (s₁.expect .semicolon).andThen (le_of_lt h₁) fun _ s₂ h₂ => .done decl s₂ (lt_trans h₂ h₁)

/-- The further declarations of a section, as long as a name and a colon come next. -/
def readVarDecls (t s : Cursor) (h : t < s) (isConst : Bool) (found : List VarDecl) :
    Reply (List VarDecl) s :=
  if t.kind = .ident ∧ t.nextKind = .colon then
    (t.readVarDecl isConst).andThen (le_of_lt h) fun decl t₁ h₁ =>
      t₁.readVarDecls s (lt_trans h₁ h) isConst (decl :: found)
  else .done found.reverse t h
termination_by t.rest.length
decreasing_by exact length_lt h₁

/-- A section: `var` or `const`, then declarations, at least one. -/
def readSection (s : Cursor) : Reply (List VarDecl) s :=
  match s.next? with
  | none => .reject s "declaration"
  | some ⟨t, s₁, h₁⟩ =>
    (s₁.readVarDecl (t.kind = .constKw)).andThen (le_of_lt h₁) fun decl s₂ h₂ =>
      s₂.readVarDecls s (lt_trans h₂ h₁) (t.kind = .constKw) [decl]

/-- The sections before the body of a procedure, `found` being those already read. -/
def readLocals (t s : Cursor) (h : t < s) (found : List VarDecl) : Reply (List VarDecl) s :=
  if t.kind = .varKw ∨ t.kind = .constKw then
    t.readSection.andThen (le_of_lt h) fun decls t₁ h₁ =>
      t₁.readLocals s (lt_trans h₁ h) (found ++ decls)
  else .done found t h
termination_by t.rest.length
decreasing_by exact length_lt h₁

/-- Parameters, at least one, the newest first in `found`. -/
def readParams (t s : Cursor) (h : t < s) (found : List VarDecl) : Reply (List VarDecl) s :=
  (t.readTyped false).andThen (le_of_lt h) fun param t₁ h₁ =>
    match t₁.accept .semicolon with
    | some ⟨t₂, h₂⟩ => t₂.readParams s (lt_trans₃ h₂ h₁ h) (param :: found)
    | none => .done (param :: found).reverse t₁ (lt_trans h₁ h)
termination_by t.rest.length
decreasing_by have := length_lt h₁; have := length_lt h₂; omega

def readParamList (t s : Cursor) (h : t < s) : Reply (List VarDecl) s :=
  match t.accept .lparen with
  | none => .done [] t h
  | some ⟨t₁, h₁⟩ =>
    let params : Reply (List VarDecl) t :=
      if t₁.kind = .ident then t₁.readParams t h₁ [] else .done [] t₁ h₁
    params.andThen (le_of_lt h) fun params t₂ h₂ =>
      (t₂.expect .rparen).andThen (le_of_lt_of_lt h₂ h) fun _ t₃ h₃ =>
        .done params t₃ (lt_trans₃ h₃ h₂ h)

def readProc (s : Cursor) : Reply ProcDecl s :=
  (s.expect .procedureKw).andThen (le_refl s) fun _ s₁ h₁ =>
  s₁.readIdent.andThen (le_of_lt h₁) fun name s₂ h₂ =>
  (s₂.readParamList s (lt_trans h₂ h₁)).andThen (le_refl s) fun params s₃ h₃ =>
  (s₃.expect .semicolon).andThen (le_of_lt h₃) fun _ s₄ h₄ =>
  (s₄.readLocals s (lt_trans h₄ h₃) []).andThen (le_refl s) fun locals s₅ h₅ =>
  s₅.readBlock.andThen (le_of_lt h₅) fun body s₆ h₆ =>
    match s₆.accept .semicolon with
    | some ⟨s₇, h₇⟩ => .done ⟨name, params, locals, body⟩ s₇ (lt_trans₃ h₇ h₆ h₅)
    | none => .done ⟨name, params, locals, body⟩ s₆ (lt_trans h₆ h₅)

def readDecl (s : Cursor) : Reply (List Decl) s :=
  match s.kind with
  | .varKw | .constKw => s.readSection.map (·.map .var)
  | .procedureKw => s.readProc.map fun proc => [.proc proc]
  | _ => .reject s "declaration"

/-- The declarations before the body of the program; broken ones are skipped. -/
def readDecls (s : Cursor) (found : List Decl) : List Decl × Cursor :=
  if hStop : s.kind = .beginKw ∨ s.kind = .endKw ∨ s.kind = .eof then (found, s)
  else
    match s.readDecl with
    | .done decls s₁ _h₁ => s₁.readDecls (found ++ decls)
    | .fail e s₁ h₁ =>
      have _hNext := recover_lt h₁ e (fun k => hStop (.inr (.inl k)))
        (fun k => hStop (.inr (.inr k)))
      (s₁.recover e).readDecls found
termination_by s.rest.length
decreasing_by
  · exact length_lt _h₁
  · exact length_lt _hNext

def defaultName : Ident := ⟨"main", .nowhere⟩

/-- `program NAME;`, which may be left out. -/
def readHeader (s : Cursor) : Ident × Cursor :=
  match s.accept .programKw with
  | none => (defaultName, s)
  | some ⟨s₁, _⟩ =>
    let header : Reply Ident s₁ :=
      s₁.readIdent.andThen (le_refl s₁) fun name s₂ h₂ =>
        (s₂.expect .semicolon).andThen (le_of_lt h₂) fun _ s₃ h₃ => .done name s₃ (lt_trans h₃ h₂)
    match header with
    | .done name s₂ _ => (name, s₂)
    | .fail e s₂ _ => (defaultName, s₂.recover e)

def readProgram (s : Cursor) : Program × Cursor :=
  let (name, s) := s.readHeader
  let (decls, s) := s.readDecls []
  let (body, s) : Block × Cursor :=
    match s.readBlock with
    | .done body s _ => (body, s)
    | .fail e s _ => (⟨[], s.current.span⟩, s.report e)
  let s :=
    match s.expect .dot with
    | .done _ s _ => s
    | .fail e s _ => s.report e
  (⟨name, decls, body⟩, s)

end Cursor

/-- Reads a program; the errors are those of the lexemes, then those of the grammar. -/
def parse (source : String) : Program × List Error :=
  let tokens := tokenize source
  let (program, s) := Cursor.readProgram ⟨tokens.list, tokens.size, .nowhere, []⟩
  (program, tokens.errors ++ s.errors.reverse)

end ChipPascal
