import ChipPascal.Program
import ChipPascal.Program.Cursor

/-!
# Reading expressions

Binary operators associate to the left and bind by precedence; signs bind tightest. Parentheses
leave no trace in the tree, and no extent in its spans.
-/

namespace ChipPascal.Cursor

mutual

/-- A signed operand, a literal, a name, or an expression in parentheses. -/
def readOperand (s : Cursor) : Reply Expr s :=
  match s.next? with
  | none => .reject s "expression"
  | some ⟨t, s₁, h₁⟩ =>
    match t.kind with
    | .minus =>
      s₁.readOperand.andThen (le_of_lt h₁) fun e s₂ h₂ =>
        .done (.unary .neg e (t.span.cover e.span)) s₂ (lt_trans h₂ h₁)
    | .plus =>
      s₁.readOperand.andThen (le_of_lt h₁) fun e s₂ h₂ =>
        .done (.unary .pos e (t.span.cover e.span)) s₂ (lt_trans h₂ h₁)
    | .number => .done (.int t.text t.span) s₁ h₁
    | .ident => .done (.ref ⟨t.text, t.span⟩) s₁ h₁
    | .lparen =>
      (s₁.readBinary 0).andThen (le_of_lt h₁) fun e s₂ h₂ =>
        (s₂.expect .rparen).andThen (le_of_lt_of_lt h₂ h₁) fun _ s₃ h₃ =>
          .done e s₃ (lt_trans₃ h₃ h₂ h₁)
    | _ => .reject s "expression"
termination_by 2 * s.rest.length
decreasing_by all_goals have := length_lt h₁; omega

/-- An expression whose operators outside parentheses bind at least as tightly as `least`. -/
def readBinary (s : Cursor) (least : Nat) : Reply Expr s :=
  s.readOperand.andThen (le_refl s) fun e t h => t.readOperators s h least e
termination_by 2 * s.rest.length + 1
decreasing_by
  · omega
  · have := length_lt h; omega

/-- Extends `left`, which was read between `s` and `t`, by the operators that follow it. -/
def readOperators (t s : Cursor) (h : t < s) (least : Nat) (left : Expr) : Reply Expr s :=
  match t.next? with
  | none => .done left t h
  | some ⟨token, t₁, h₁⟩ =>
    match token.kind.binaryOp? with
    | none => .done left t h
    | some op =>
      if op.precedence < least then .done left t h
      else
        (t₁.readBinary (op.precedence + 1)).andThen (le_of_lt_of_lt h₁ h)
          fun right t₂ h₂ =>
            t₂.readOperators s (lt_trans₃ h₂ h₁ h) least
              (.binary op left right (left.span.cover right.span))
termination_by 2 * t.rest.length
decreasing_by
  · have := length_lt h₁; omega
  · have := length_lt h₁; have := length_lt h₂; omega

end

def readExpr (s : Cursor) : Reply Expr s := s.readBinary 0

end ChipPascal.Cursor
