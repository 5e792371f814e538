import ChipPascal.Program.ExprParser

/-!
# Reading statements

An error inside a block is recorded, and reading goes on at the next boundary: the block keeps the
statements before and after the bad one. Every round of the loop reads at least one token.
-/

namespace ChipPascal.Cursor

/-- The arguments of a call after its opening parenthesis, at least one, the newest first in
`found`. -/
def readArgs (t s : Cursor) (h : t < s) (found : List Expr) : Reply (List Expr) s :=
  t.readExpr.andThen (le_of_lt h) fun arg t₁ h₁ =>
    match t₁.accept .comma with
    | some ⟨t₂, h₂⟩ => t₂.readArgs s (lt_trans₃ h₂ h₁ h) (arg :: found)
    | none => .done (arg :: found).reverse t₁ (lt_trans h₁ h)
termination_by t.rest.length
decreasing_by have := length_lt h₁; have := length_lt h₂; omega

/-- The rest of a call after its name, which was read between `s` and `t`. -/
def readCall (t s : Cursor) (h : t < s) (name : Ident) : Reply Stmt s :=
  match t.accept .lparen with
  | none => .done (.call name []) t h
  | some ⟨t₁, h₁⟩ =>
    match t₁.accept .rparen with
    | some ⟨t₂, h₂⟩ => .done (.call name []) t₂ (lt_trans₃ h₂ h₁ h)
    | none =>
      (t₁.readArgs t h₁ []).andThen (le_of_lt h) fun args t₂ h₂ =>
        (t₂.expect .rparen).andThen (le_of_lt_of_lt h₂ h) fun _ t₃ h₃ =>
          .done (.call name args) t₃ (lt_trans₃ h₃ h₂ h)

mutual

def readStmt (s : Cursor) : Reply Stmt s :=
  match s.next? with
  | none => .reject s "statement"
  | some ⟨t, s₁, h₁⟩ =>
    match t.kind with
    | .beginKw =>
      (s₁.readStmts s h₁ t.span []).map fun block => .block block.stmts block.span
    | .ifKw =>
      s₁.readExpr.andThen (le_of_lt h₁) fun cond s₂ h₂ =>
      (s₂.expect .thenKw).andThen (le_of_lt_of_lt h₂ h₁) fun _ s₃ h₃ =>
      s₃.readStmt.andThen (le_of_lt (lt_trans₃ h₃ h₂ h₁)) fun yes s₄ h₄ =>
        have h₄₁ := lt_trans h₄ (lt_trans₃ h₃ h₂ h₁)
        match s₄.accept .elseKw with
        | none => .done (.ifThen cond yes (t.span.cover s₄.last)) s₄ h₄₁
        | some ⟨s₅, h₅⟩ =>
          s₅.readStmt.andThen (le_of_lt_of_lt h₅ h₄₁) fun no s₆ h₆ =>
            .done (.ifElse cond yes no (t.span.cover s₆.last)) s₆ (lt_trans₃ h₆ h₅ h₄₁)
    | .ident =>
      match s₁.accept .becomes with
      | none => s₁.readCall s h₁ ⟨t.text, t.span⟩
      | some ⟨s₂, h₂⟩ =>
        s₂.readExpr.andThen (le_of_lt_of_lt h₂ h₁) fun value s₃ h₃ =>
          .done (.assign ⟨t.text, t.span⟩ value) s₃ (lt_trans₃ h₃ h₂ h₁)
    | _ => .reject s "statement"
termination_by 2 * s.rest.length
decreasing_by
  · have := length_lt h₁; omega
  · have := length_lt h₁; have := length_lt h₂; have := length_lt h₃; omega
  · have := length_lt h₄₁; have := length_lt h₅; omega

/-- The rest of a block that began at `start`, where `s` stood before its `begin`; `found` are its
statements so far, the newest first. -/
def readStmts (t s : Cursor) (h : t < s) (start : Span) (found : List Stmt) : Reply Block s :=
  if hClose : t.kind = .endKw ∨ t.kind = .eof then
    (t.expect .endKw).andThen (le_of_lt h) fun close t₁ h₁ =>
      .done ⟨found.reverse, start.cover close.span⟩ t₁ (lt_trans h₁ h)
  else
    match t.readStmt with
    | .fail e t₁ h₁ =>
      have hNext := recover_lt h₁ e (fun k => hClose (.inl k)) (fun k => hClose (.inr k))
      (t₁.recover e).readStmts s (lt_trans hNext h) start found
    | .done stmt t₁ h₁ =>
      match t₁.accept .semicolon with
      | some ⟨t₂, h₂⟩ => t₂.readStmts s (lt_trans₃ h₂ h₁ h) start (stmt :: found)
      | none =>
        if t₁.kind = .endKw then t₁.readStmts s (lt_trans h₁ h) start (stmt :: found)
        else
          have hNext := recover_le t₁ (t₁.unexpected TokenKind.semicolon.describe)
          (t₁.recover (t₁.unexpected TokenKind.semicolon.describe)).readStmts s
            (lt_of_le_of_lt hNext (lt_trans h₁ h)) start (stmt :: found)
termination_by 2 * t.rest.length + 1
decreasing_by
  · omega
  · have := length_lt hNext; omega
  · have := length_lt h₁; have := length_lt h₂; omega
  · have := length_lt h₁; omega
  · have := length_lt (lt_of_le_of_lt hNext h₁); omega

end

/-- A block in its own right: the body of a procedure or of the program. -/
def readBlock (s : Cursor) : Reply Block s :=
  (s.expect .beginKw).andThen (le_refl s) fun t s₁ h₁ => s₁.readStmts s h₁ t.span []

end ChipPascal.Cursor
