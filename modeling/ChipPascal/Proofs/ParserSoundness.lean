import ChipPascal.Proofs.Grammar

/-!
# What the parser accepts

Every complaint of the parser is about a token that was not expected. Where it does not complain,
the tokens it went past are a phrase of the grammar, and the tree it gives is the one that stands
for this phrase.

What a phrase is can depend on the token behind it: an expression ends where no operator follows
that binds tightly enough, and an `if` without `else` where no `else` follows.
-/

namespace ChipPascal

def Error.IsUnexpected : Error → Prop
  | .unexpectedToken .. => True
  | _ => False

/-! ### Reading without complaint -/

namespace Cursor

open Grammar

variable {α β : Type} {s t u v : Cursor}

structure Advances (t u : Cursor) (used : List Token) : Prop where
  rest : t.rest = used ++ u.rest
  last : u.last = lastSpan t.last used

theorem Advances.refl (t : Cursor) : Advances t t [] := ⟨rfl, rfl⟩

theorem Advances.trans {used used' : List Token} (h : Advances t u used) (h' : Advances u v used') :
    Advances t v (used ++ used') := by
  constructor
  · rw [h.rest, h'.rest, List.append_assoc]
  · rw [h'.last, h.last, lastSpan_append]

/-- The errors met between `t` and `u` complain about tokens. If there are none, the tokens
between `t` and `u` satisfy `P`. -/
def Reads (t : Cursor) (P : List Token → Prop) (u : Cursor) : Prop :=
  ∃ new, u.errors = new ++ t.errors ∧ (∀ e ∈ new, e.IsUnexpected) ∧
    (new = [] → ∃ used, Advances t u used ∧ P used)

theorem reads_refl {P : List Token → Prop} (h : P []) : t.Reads P t :=
  ⟨[], rfl, by simp, fun _ => ⟨[], .refl t, h⟩⟩

/-- Two parts read in a row are read as a whole, unless one of them complained. -/
theorem Reads.trans {P Q : List Token → Prop} (h : t.Reads P u)
    (h' : u.Reads (fun used' => ∀ used, Advances t u used → P used → Q (used ++ used')) v) :
    t.Reads Q v := by
  obtain ⟨new, hErrors, hNew, hClean⟩ := h
  obtain ⟨new', hErrors', hNew', hClean'⟩ := h'
  refine ⟨new' ++ new, ?_, ?_, ?_⟩
  · rw [hErrors', hErrors, List.append_assoc]
  · intro e he
    rcases List.mem_append.mp he with he | he
    · exact hNew' e he
    · exact hNew e he
  · intro hNone
    obtain ⟨hNone', hNone⟩ := List.append_eq_nil_iff.mp hNone
    obtain ⟨used, hReached, hP⟩ := hClean hNone
    obtain ⟨used', hReached', hQ⟩ := hClean' hNone'
    exact ⟨used ++ used', hReached.trans hReached', hQ used hReached hP⟩

theorem Reads.imp {P Q : List Token → Prop} (h : t.Reads P u) (hPQ : ∀ used, P used → Q used) :
    t.Reads Q u := by
  obtain ⟨new, hErrors, hNew, hClean⟩ := h
  refine ⟨new, hErrors, hNew, fun hNone => ?_⟩
  obtain ⟨used, hReached, hP⟩ := hClean hNone
  exact ⟨used, hReached, hPQ used hP⟩

/-- Once there is a complaint, nothing has to hold of the tokens. -/
theorem reads_of_complaint {P : List Token → Prop} {Q : List Token → Prop} {e : Error}
    (h : t.Reads P u) (he : e.IsUnexpected) (hv : v.errors = e :: u.errors) : t.Reads Q v := by
  obtain ⟨new, hErrors, hNew, -⟩ := h
  refine ⟨e :: new, by rw [hv, hErrors, List.cons_append], ?_, by simp⟩
  intro e' he'
  rcases List.mem_cons.mp he' with rfl | he'
  · exact he
  · exact hNew e' he'

/-- Without errors, what was read is what the grammar asks for. -/
theorem Reads.clean {P : List Token → Prop} (h : t.Reads P u) (hErrors : u.errors = []) :
    ∃ used, Advances t u used ∧ P used := by
  obtain ⟨new, hNew, -, hClean⟩ := h
  rw [hErrors] at hNew
  exact hClean (List.append_eq_nil_iff.mp hNew.symm).1

/-- The parser complains of unexpected tokens only. -/
theorem Reads.unexpected {P : List Token → Prop} (h : t.Reads P u)
    (ht : ∀ e ∈ t.errors, e.IsUnexpected) : ∀ e ∈ u.errors, e.IsUnexpected := by
  obtain ⟨new, hErrors, hNew, -⟩ := h
  intro e he
  rw [hErrors] at he
  rcases List.mem_append.mp he with he | he
  · exact hNew e he
  · exact ht e he

end Cursor

namespace Reply

open Cursor Grammar

variable {α β : Type} {s t : Cursor}

/-- What was read from `t` satisfies `P`, with the tokens gone past and the cursor behind them, if
there was no complaint. -/
def Reads (t : Cursor) (P : List Token → α → Cursor → Prop) : Reply α s → Prop
  | .done a u _ => t.Reads (fun used => P used a u) u
  | .fail e u _ => e.IsUnexpected ∧ t.Reads (fun _ => True) u

theorem reads_done {P : List Token → α → Cursor → Prop} {a : α} {lt : t < s} (h : P [] a t) :
    (Reply.done a t lt).Reads t P :=
  reads_refl h

theorem reads_reject {P : List Token → α → Cursor → Prop} (what : String) :
    (Reply.reject s what : Reply α s).Reads s P :=
  ⟨trivial, reads_refl trivial⟩

theorem Reads.andThen {r : Reply α t} {h : t ≤ s}
    {f : (a : α) → (u : Cursor) → u < t → Reply β s} {start : Cursor}
    {P : List Token → α → Cursor → Prop} {Q : List Token → β → Cursor → Prop}
    (hr : r.Reads start P)
    (hf : ∀ a u lt, (f a u lt).Reads u fun used' b v =>
      ∀ used, Advances start u used → P used a u → Q (used ++ used') b v) :
    (r.andThen h f).Reads start Q := by
  cases r with
  | done a u lt =>
    have hNext := hf a u lt
    simp only [andThen_done]
    cases hResult : f a u lt with
    | done b v _ =>
      rw [hResult] at hNext
      exact Cursor.Reads.trans hr hNext
    | fail e v _ =>
      rw [hResult] at hNext
      exact ⟨hNext.1, Cursor.Reads.trans hr (hNext.2.imp fun _ _ _ _ _ => trivial)⟩
  | fail e u le => exact hr

theorem Reads.map {r : Reply α s} {f : α → β} {P : List Token → α → Cursor → Prop}
    {Q : List Token → β → Cursor → Prop} (hr : r.Reads t P)
    (hf : ∀ used a u, P used a u → Q used (f a) u) : (r.map f).Reads t Q := by
  cases r with
  | done a u lt => exact Cursor.Reads.imp hr fun used => hf used a u
  | fail e u le => exact hr

theorem Reads.imp {r : Reply α s} {P Q : List Token → α → Cursor → Prop} (hr : r.Reads t P)
    (h : ∀ used a u, P used a u → Q used a u) : r.Reads t Q := by
  cases r with
  | done a u lt => exact Cursor.Reads.imp hr fun used => h used a u
  | fail e u le => exact hr

/-- What is read behind other tokens. -/
theorem Reads.after {r : Reply α s} {u : Cursor} {P : List Token → Prop}
    {Q : List Token → α → Cursor → Prop} (h : t.Reads P u)
    (hr : r.Reads u fun used' a v => ∀ used, Advances t u used → P used → Q (used ++ used') a v) :
    r.Reads t Q := by
  cases r with
  | done a v _ => exact h.trans hr
  | fail e v _ => exact ⟨hr.1, h.trans (hr.2.imp fun _ _ _ _ _ => trivial)⟩

end Reply

/-! ### Single tokens -/

namespace Cursor

open Grammar Reply

variable {s t : Cursor}

theorem isUnexpected_unexpected (s : Cursor) (what : String) : (s.unexpected what).IsUnexpected :=
  trivial

theorem advances_next {step : Step s} (h : s.next? = some step) :
    Advances s step.left [step.token] ∧ step.left.errors = s.errors := by
  obtain ⟨rest, size, last, errors⟩ := s
  cases rest with
  | nil => simp [next?] at h
  | cons token rest =>
    simp only [next?, Option.some.injEq] at h
    subst h
    exact ⟨⟨rfl, rfl⟩, rfl⟩

theorem kind_next {step : Step s} (h : s.next? = some step) : s.kind = step.token.kind := by
  simp [kind, current, (advances_next h).1.rest]

theorem kind_of_next_none (h : s.next? = none) : s.kind = .eof := by
  obtain ⟨rest, size, last, errors⟩ := s
  cases rest with
  | nil => rfl
  | cons token rest => simp [next?] at h

theorem reads_next {step : Step s} (h : s.next? = some step) :
    s.Reads (fun used => used = [step.token]) step.left :=
  ⟨[], (advances_next h).2, by simp, fun _ => ⟨_, (advances_next h).1, rfl⟩⟩

theorem reads_accept {kind : TokenKind} {left : { t : Cursor // t < s }}
    (h : s.accept kind = some left) :
    s.kind = kind ∧
      s.Reads (fun used => ∃ token : Token, token.kind = kind ∧ used = [token]) left.val := by
  simp only [accept] at h
  split at h
  · simp at h
  · next token left lt hNext =>
    split at h
    · next hKind =>
      cases h
      exact ⟨(kind_next hNext).trans hKind,
        (reads_next hNext).imp fun used hUsed => ⟨token, hKind, hUsed⟩⟩
    · simp at h

theorem kind_ne_of_accept_none {kind : TokenKind} (h : s.accept kind = none)
    (hKind : kind ≠ .eof) : s.kind ≠ kind := by
  simp only [accept] at h
  split at h
  · next hNext => rw [kind_of_next_none hNext]; exact hKind.symm
  · next token left lt hNext =>
    split at h
    · simp at h
    · next hNe => rw [kind_next hNext]; exact hNe

theorem reads_expectAs (s : Cursor) (kind : TokenKind) (what : String) :
    (s.expectAs kind what).Reads s fun used token _ => token.kind = kind ∧ used = [token] := by
  unfold expectAs
  split
  · exact reads_reject what
  · next token left lt hNext =>
    split
    · next hKind => exact (reads_next hNext).imp fun used hUsed => ⟨hKind, hUsed⟩
    · exact reads_reject what

theorem reads_expect (s : Cursor) (kind : TokenKind) :
    (s.expect kind).Reads s fun used token _ => token.kind = kind ∧ used = [token] :=
  reads_expectAs s kind _

/-! ### Expressions -/

/-- The level of the grammar for expressions whose operators outside parentheses bind at least as
tightly as `least`. -/
def IsAtLevel : Nat → List Token → Expr → Prop
  | 0 | 1 => IsExpr
  | 2 => IsTerm
  | _ => IsUnary

def EndsLevel (least : Nat) (s : Cursor) : Prop :=
  ∀ op, s.kind.binaryOp? = some op → op.precedence < least

theorem IsAtLevel.of_unary {ts : List Token} {e : Expr} (h : IsUnary ts e) (least : Nat) :
    IsAtLevel least ts e := by
  match least with
  | 0 | 1 => exact .term (.unary h)
  | 2 => exact .unary h
  | _ + 3 => exact h

/-- What binds more tightly may stand where less is asked for. -/
theorem IsAtLevel.mono {least level : Nat} {ts : List Token} {e : Expr} (hle : least ≤ level)
    (h : IsAtLevel level ts e) : IsAtLevel least ts e := by
  match level with
  | 0 | 1 =>
    match least with
    | 0 | 1 => exact h
  | 2 =>
    match least with
    | 0 | 1 => exact .term h
    | 2 => exact h
  | _ + 3 => exact .of_unary h least

/-- Operators of one level associate to the left. -/
theorem IsAtLevel.binary {t : Token} {op : BinaryOp} {ls rs : List Token} {left right : Expr}
    (hLeft : IsAtLevel op.precedence ls left) (ht : t.kind.binaryOp? = some op)
    (hRight : IsAtLevel (op.precedence + 1) rs right) :
    IsAtLevel op.precedence (ls ++ t :: rs)
      (.binary op left right (left.span.cover right.span)) := by
  cases op with
  | add => exact .operation hLeft ht (.inl rfl) hRight
  | sub => exact .operation hLeft ht (.inr rfl) hRight
  | mul => exact .operation hLeft ht (.inl rfl) hRight
  | div => exact .operation hLeft ht (.inr rfl) hRight

/-- `left` can be the left operand of whatever operator comes next. -/
def Extends (least : Nat) (ls : List Token) (left : Expr) (t : Cursor) : Prop :=
  IsAtLevel least ls left ∧
    ∀ op, t.kind.binaryOp? = some op → least ≤ op.precedence → IsAtLevel op.precedence ls left

theorem Extends.of_unary {ts : List Token} {e : Expr} (h : IsUnary ts e) (least : Nat)
    (t : Cursor) : Extends least ts e t :=
  ⟨.of_unary h least, fun _ _ _ => .of_unary h _⟩

mutual

theorem reads_readOperand (s : Cursor) : s.readOperand.Reads s fun used e _ => IsUnary used e := by
  have sign {t : Token} {s₁ : Cursor} {h₁ : s₁ < s} (op : UnaryOp)
      (hNext : s.next? = some ⟨t, s₁, h₁⟩) (hKind : t.kind.unaryOp? = some op) :
      (s₁.readOperand.andThen (le_of_lt h₁) fun e s₂ h₂ =>
        (.done (.unary op e (t.span.cover e.span)) s₂ (lt_trans h₂ h₁) : Reply Expr s)).Reads s
        fun used e _ => IsUnary used e := by
    have hLess := length_lt h₁
    refine .after (reads_next hNext) ((reads_readOperand s₁).andThen fun e s₂ h₂ => ?_)
    apply reads_done
    rintro used - hUsed _ - rfl
    simpa using IsUnary.sign hKind hUsed
  rw [readOperand]
  split
  · exact reads_reject _
  · next t s₁ h₁ hNext =>
    split
    · next hKind => exact sign .neg hNext (by rw [hKind]; rfl)
    · next hKind => exact sign .pos hNext (by rw [hKind]; rfl)
    · next hKind =>
      refine (reads_next hNext).imp fun used hUsed => ?_
      rw [hUsed]
      exact .primary (.number hKind)
    · next hKind =>
      refine (reads_next hNext).imp fun used hUsed => ?_
      rw [hUsed]
      exact .primary (.name hKind)
    · next hKind =>
      have hLess := length_lt h₁
      refine .after (reads_next hNext) ((reads_readBinary s₁ 0).andThen fun e s₂ h₂ => ?_)
      refine (reads_expect s₂ .rparen).andThen fun c s₃ h₃ => ?_
      apply reads_done
      rintro _ - ⟨hClose, rfl⟩ used - ⟨hUsed, -⟩ _ - rfl
      simpa using IsUnary.primary (.parens hKind hUsed hClose)
    · exact reads_reject _
termination_by 2 * s.rest.length
decreasing_by all_goals omega

/-- What is read at a level is of that level, and no operator of it follows. -/
theorem reads_readBinary (s : Cursor) (least : Nat) :
    (s.readBinary least).Reads s fun used e u => IsAtLevel least used e ∧ EndsLevel least u := by
  rw [readBinary]
  refine (reads_readOperand s).andThen fun e t h => ?_
  have hLess := length_lt h
  refine (reads_readOperators t s h least e).imp fun used' e' u hOperators used _ hUsed => ?_
  exact hOperators used (.of_unary hUsed least t)
termination_by 2 * s.rest.length + 1
decreasing_by all_goals omega

/-- The operators go on from an operand that was read before. -/
theorem reads_readOperators (t s : Cursor) (h : t < s) (least : Nat) (left : Expr) :
    (t.readOperators s h least left).Reads t fun used e u => ∀ ls, Extends least ls left t →
      IsAtLevel least (ls ++ used) e ∧ EndsLevel least u := by
  rw [readOperators]
  split
  · next hNext =>
    apply reads_done
    intro ls hLeft
    refine ⟨by simpa using hLeft.1, fun op hOp => ?_⟩
    rw [kind_of_next_none hNext] at hOp
    cases hOp
  · next token t₁ h₁ hNext =>
    split
    · next hNone =>
      apply reads_done
      intro ls hLeft
      refine ⟨by simpa using hLeft.1, fun op hOp => ?_⟩
      rw [kind_next hNext, hNone] at hOp
      cases hOp
    · next op hOp =>
      split
      · next hLess =>
        apply reads_done
        intro ls hLeft
        refine ⟨by simpa using hLeft.1, fun op' hOp' => ?_⟩
        rw [kind_next hNext, hOp] at hOp'
        cases hOp'
        exact hLess
      · next hNotLess =>
        have hLess₁ := length_lt h₁
        refine .after (reads_next hNext) ((reads_readBinary t₁ _).andThen fun right t₂ h₂ => ?_)
        have hLess₂ := length_lt h₂
        refine (reads_readOperators t₂ s _ least _).imp fun used' e u hRest => ?_
        rintro rs - ⟨hRight, hEnds⟩ _ - rfl ls ⟨-, hLeft⟩
        have hOpNext : t.kind.binaryOp? = some op := by rw [kind_next hNext]; exact hOp
        have hBinary := IsAtLevel.binary (hLeft op hOpNext (by omega)) hOp hRight
        have hExtends : Extends least (ls ++ token :: rs)
            (.binary op left right (left.span.cover right.span)) t₂ := by
          refine ⟨hBinary.mono (by omega), fun op' hOp' _ => ?_⟩
          exact hBinary.mono (Nat.lt_succ_iff.mp (hEnds op' hOp'))
        simpa using hRest _ hExtends
termination_by 2 * t.rest.length
decreasing_by all_goals omega

end

theorem reads_readExpr (s : Cursor) : s.readExpr.Reads s fun used e _ => IsExpr used e :=
  (reads_readBinary s 0).imp fun _ _ _ h => h.1

/-! ### Statements -/

theorem reads_readArgs (t s : Cursor) (h : t < s) (found : List Expr) :
    (t.readArgs s h found).Reads t fun used args _ =>
      ∃ new, args = found.reverse ++ new ∧ Separated IsExpr .comma used new := by
  fun_induction readArgs t s h found with
  | case1 t h found ih =>
    refine (reads_readExpr t).andThen fun arg t₁ h₁ => ?_
    split
    · next t₂ h₂ hComma =>
      refine .after (reads_accept hComma).2 ((ih arg t₁ h₁ t₂ h₂).imp ?_)
      rintro rest args u ⟨new, rfl, hNew⟩ _ - ⟨comma, hKind, rfl⟩ used - hArg
      exact ⟨arg :: new, by simp, .more hArg hKind hNew⟩
    · apply reads_done
      intro used _ hArg
      exact ⟨[arg], by simp, by simpa using Separated.one hArg⟩

theorem reads_readCall (t s : Cursor) (h : t < s) (name : Ident) :
    (t.readCall s h name).Reads t fun used stmt _ =>
      ∃ args, stmt = .call name args ∧ IsArguments used args := by
  unfold readCall
  split
  · exact reads_done ⟨[], rfl, .absent⟩
  · next t₁ h₁ hOpen =>
    refine .after (reads_accept hOpen).2 ?_
    split
    · next t₂ h₂ hClose =>
      refine (reads_accept hClose).2.imp ?_
      rintro _ ⟨c, hc, rfl⟩ _ - ⟨o, ho, rfl⟩
      exact ⟨[], rfl, .empty ho hc⟩
    · refine (reads_readArgs t₁ t h₁ []).andThen fun args t₂ h₂ => ?_
      refine (reads_expect t₂ .rparen).andThen fun c t₃ h₃ => ?_
      apply reads_done
      rintro _ - ⟨hc, rfl⟩ used - ⟨new, hNew, hArgs⟩ _ - ⟨o, ho, rfl⟩
      rw [hNew]
      exact ⟨new, rfl, by simpa using IsArguments.some ho hArgs hc⟩

def IsBlockEnd (start : Span) (found : List Stmt) (used : List Token) (block : Block) : Prop :=
  ∃ ts e stmts, used = ts ++ [e] ∧ e.kind = .endKw ∧ IsBody ts stmts ∧
    block = ⟨found.reverse ++ stmts, start.cover e.span⟩

theorem IsBlockEnd.isBlock {b : Token} {used : List Token} {block : Block}
    (h : IsBlockEnd b.span [] used block) (hb : b.kind = .beginKw) : IsBlock (b :: used) block := by
  obtain ⟨ts, e, stmts, rfl, he, hBody, rfl⟩ := h
  have hExtent : b.span.cover e.span = extent (b :: (ts ++ [e])) := by simp [extent, lastSpan]
  rw [hExtent]
  exact .compound hb hBody he

theorem IsBlockEnd.cons {start : Span} {found : List Stmt} {stmt : Stmt} {t : Token}
    {ts used : List Token} {block : Block} (hStmt : IsStmt ts stmt) (ht : t.kind = .semicolon)
    (h : IsBlockEnd start (stmt :: found) used block) :
    IsBlockEnd start found (ts ++ t :: used) block := by
  obtain ⟨us, e, stmts, rfl, he, hBody, rfl⟩ := h
  exact ⟨ts ++ t :: us, e, stmt :: stmts, by simp, he, hBody.cons hStmt ht, by simp⟩

theorem reads_closeBlock {t s : Cursor} (h : t < s) (start : Span) (stmts : List Stmt) :
    ((t.expect .endKw).andThen (le_of_lt h) fun close t₁ h₁ =>
      (.done ⟨stmts, start.cover close.span⟩ t₁ (lt_trans h₁ h) : Reply Block s)).Reads t
      fun used block _ => ∃ e : Token, e.kind = .endKw ∧ used = [e] ∧
        block = ⟨stmts, start.cover e.span⟩ := by
  refine (reads_expect t .endKw).andThen fun e t₁ h₁ => ?_
  apply reads_done
  rintro _ - ⟨he, rfl⟩
  exact ⟨e, he, rfl, rfl⟩

mutual

/-- After an `if` that could have had an `else` there is none. -/
theorem reads_readStmt (s : Cursor) :
    s.readStmt.Reads s fun used stmt u => IsStmt used stmt ∧ (EndsOpen stmt → u.kind ≠ .elseKw) := by
  rw [readStmt]
  split
  · exact reads_reject _
  · next t s₁ h₁ hNext =>
    have hLess₁ := length_lt h₁
    split
    · next hKind =>
      refine .after (reads_next hNext) ?_
      refine (reads_readStmts s₁ s h₁ t.span []).map fun used block u hBlock => ?_
      rintro _ - rfl
      exact ⟨.block (hBlock.isBlock hKind), False.elim⟩
    · next hKind =>
      refine .after (reads_next hNext) ((reads_readExpr s₁).andThen fun cond s₂ h₂ => ?_)
      refine (reads_expect s₂ .thenKw).andThen fun th s₃ h₃ => ?_
      have hLess₃ := length_lt (lt_trans h₃ h₂)
      refine (reads_readStmt s₃).andThen fun yes s₄ h₄ => ?_
      split
      · next hElse =>
        apply reads_done
        rintro ys hReached ⟨hYes, -⟩ _ hThen ⟨hth, rfl⟩ cs - hCond _ - rfl
        have hLast : s₄.last = lastSpan th.span ys := by rw [hReached.last, hThen.last]; rfl
        refine ⟨?_, fun _ => kind_ne_of_accept_none hElse (by simp)⟩
        rw [hLast]
        simpa [extent, lastSpan] using IsStmt.ifThen hKind hCond hth hYes
      · next s₅ h₅ hElse =>
        obtain ⟨hElseKind, hElseRead⟩ := reads_accept hElse
        have hLess₅ := length_lt (lt_trans h₅ h₄)
        refine .after hElseRead ((reads_readStmt s₅).andThen fun no s₆ h₆ => ?_)
        apply reads_done
        rintro ns hReached ⟨hNo, hEnds⟩ _ hElseReached ⟨el, hel, rfl⟩ ys - ⟨hYes, hYesEnds⟩ _ -
          ⟨hth, rfl⟩ cs - hCond _ - rfl
        have hLast : s₆.last = lastSpan el.span ns := by
          rw [hReached.last, hElseReached.last]; rfl
        have hClosed : ¬ EndsOpen yes := fun hOpen => hYesEnds hOpen hElseKind
        refine ⟨?_, hEnds⟩
        rw [hLast]
        simpa [extent, lastSpan] using IsStmt.ifElse hKind hCond hth hYes hClosed hel hNo
    · next hKind =>
      refine .after (reads_next hNext) ?_
      split
      · refine (reads_readCall s₁ s h₁ _).imp ?_
        rintro used stmt u ⟨args, rfl, hArgs⟩ _ - rfl
        exact ⟨.call hKind hArgs, False.elim⟩
      · next s₂ h₂ hBecomes =>
        refine .after (reads_accept hBecomes).2 ((reads_readExpr s₂).andThen fun value s₃ h₃ => ?_)
        apply reads_done
        rintro used - hValue _ - ⟨a, ha, rfl⟩ _ - rfl
        rw [List.append_nil]
        exact ⟨.assign hKind ha hValue, False.elim⟩
    · exact reads_reject _
termination_by 2 * s.rest.length
decreasing_by all_goals omega

/-- The rest of a block is read up to its `end`. -/
theorem reads_readStmts (t s : Cursor) (h : t < s) (start : Span) (found : List Stmt) :
    (t.readStmts s h start found).Reads t fun used block _ =>
      IsBlockEnd start found used block := by
  rw [readStmts]
  split
  · refine (reads_closeBlock h start found.reverse).imp ?_
    rintro used block u ⟨e, he, rfl, rfl⟩
    exact ⟨[], e, [], rfl, he, .empty, by simp⟩
  · next hClose =>
    have hRead := reads_readStmt t
    split
    · next e t₁ h₁ hFail =>
      rw [hFail] at hRead
      have hLess := length_lt
        (recover_lt h₁ e (fun k => hClose (.inl k)) fun k => hClose (.inr k))
      have hSkip : t.Reads (fun _ => False) (t₁.recover e) := reads_of_complaint hRead.2 hRead.1 rfl
      exact .after hSkip ((reads_readStmts _ s _ start found).imp fun _ _ _ _ _ _ hFalse =>
        hFalse.elim)
    · next stmt t₁ h₁ hDone =>
      rw [hDone] at hRead
      have hLess₁ := length_lt h₁
      split
      · next t₂ h₂ hSemicolon =>
        have hLess₂ := length_lt h₂
        refine .after hRead (.after (reads_accept hSemicolon).2 ?_)
        refine (reads_readStmts t₂ s _ start (stmt :: found)).imp ?_
        rintro used block u hBlock _ - ⟨sep, hSep, rfl⟩ ts - ⟨hStmt, -⟩
        exact hBlock.cons hStmt hSep
      · next hSemicolon =>
        split
        · next hEnd =>
          refine .after hRead ?_
          rw [readStmts, dif_pos (.inl hEnd)]
          refine (reads_closeBlock (lt_trans h₁ h) start (stmt :: found).reverse).imp ?_
          rintro used block u ⟨e, he, rfl, rfl⟩ ts - ⟨hStmt, -⟩
          exact ⟨ts, e, [stmt], rfl, he, .one hStmt, by simp⟩
        · have hLess := (recover_le t₁ (t₁.unexpected TokenKind.semicolon.describe)).length_le
          have hSkip : t.Reads (fun _ => False)
              (t₁.recover (t₁.unexpected TokenKind.semicolon.describe)) :=
            reads_of_complaint hRead (isUnexpected_unexpected _ _) rfl
          exact .after hSkip ((reads_readStmts _ s _ start (stmt :: found)).imp
            fun _ _ _ _ _ _ hFalse => hFalse.elim)
termination_by 2 * t.rest.length + 1
decreasing_by all_goals omega

end

theorem reads_readBlock (s : Cursor) : s.readBlock.Reads s fun used block _ => IsBlock used block := by
  refine (reads_expect s .beginKw).andThen fun b s₁ h₁ => ?_
  refine (reads_readStmts s₁ s h₁ b.span []).imp ?_
  rintro used block u hBlock _ - ⟨hb, rfl⟩
  exact hBlock.isBlock hb

/-! ### Declarations -/

theorem reads_readIdent (s : Cursor) :
    s.readIdent.Reads s fun used name _ =>
      ∃ t : Token, t.kind = .ident ∧ used = [t] ∧ name = t.ident := by
  refine (reads_expect s .ident).map ?_
  rintro used t u ⟨ht, hUsed⟩
  exact ⟨t, ht, hUsed, rfl⟩

theorem reads_readTyped (s : Cursor) (isConst : Bool) :
    (s.readTyped isConst).Reads s fun used decl _ => IsTyped isConst used decl := by
  refine (reads_readIdent s).andThen fun name s₁ h₁ => ?_
  refine (reads_expect s₁ .colon).andThen fun c s₂ h₂ => ?_
  refine (reads_expectAs s₂ .ident _).andThen fun type s₃ h₃ => ?_
  apply reads_done
  rintro _ - ⟨hType, rfl⟩ _ - ⟨hc, rfl⟩ _ - ⟨n, hn, rfl, rfl⟩
  exact .typed hn hc hType

theorem reads_readVarDecl (s : Cursor) (isConst : Bool) :
    (s.readVarDecl isConst).Reads s fun used decl _ => IsVarDecl isConst used decl := by
  refine (reads_readTyped s isConst).andThen fun decl s₁ h₁ => ?_
  refine (reads_expect s₁ .semicolon).andThen fun sep s₂ h₂ => ?_
  apply reads_done
  rintro _ - ⟨hSep, rfl⟩ used - hTyped
  exact .ended hTyped hSep

theorem reads_readVarDecls (t s : Cursor) (h : t < s) (isConst : Bool) (found : List VarDecl) :
    (t.readVarDecls s h isConst found).Reads t fun used decls _ =>
      ∃ new, decls = found.reverse ++ new ∧ Repeated (IsVarDecl isConst) used new := by
  fun_induction readVarDecls t s h isConst found with
  | case1 t h found _ ih =>
    refine (reads_readVarDecl t isConst).andThen fun decl t₁ h₁ => ?_
    refine (ih decl t₁ h₁).imp ?_
    rintro rest decls u ⟨new, rfl, hNew⟩ used - hDecl
    exact ⟨decl :: new, by simp, .more hDecl hNew⟩
  | case2 t h found _ => exact reads_done ⟨[], by simp, .none⟩

theorem reads_readSection (s : Cursor) (hKind : s.kind = .varKw ∨ s.kind = .constKw) :
    s.readSection.Reads s fun used decls _ => IsSection used decls := by
  unfold readSection
  split
  · exact reads_reject _
  · next k s₁ h₁ hNext =>
    refine .after (reads_next hNext) ((reads_readVarDecl s₁ _).andThen fun decl s₂ h₂ => ?_)
    refine (reads_readVarDecls s₂ s _ _ [decl]).imp ?_
    rintro rest decls u ⟨new, rfl, hNew⟩ used - hDecl _ - rfl
    have hDecls := Repeated.more hDecl hNew
    rw [kind_next hNext] at hKind
    rcases hKind with hk | hk
    · have hFlag : decide (k.kind = .constKw) = false := by rw [hk]; rfl
      rw [hFlag] at hDecls
      exact .vars hk hDecls (by simp)
    · have hFlag : decide (k.kind = .constKw) = true := by rw [hk]; rfl
      rw [hFlag] at hDecls
      exact .consts hk hDecls (by simp)

theorem reads_readLocals (t s : Cursor) (h : t < s) (found : List VarDecl) :
    (t.readLocals s h found).Reads t fun used decls _ =>
      ∃ sections, decls = found ++ sections.flatten ∧ Repeated IsSection used sections := by
  fun_induction readLocals t s h found with
  | case1 t h found hKind ih =>
    refine (reads_readSection t hKind).andThen fun decls t₁ h₁ => ?_
    refine (ih decls t₁ h₁).imp ?_
    rintro rest _ u ⟨sections, rfl, hSections⟩ used - hSection
    exact ⟨decls :: sections, by simp, .more hSection hSections⟩
  | case2 t h found _ => exact reads_done ⟨[], by simp, .none⟩

theorem reads_readParams (t s : Cursor) (h : t < s) (found : List VarDecl) :
    (t.readParams s h found).Reads t fun used params _ =>
      ∃ new, params = found.reverse ++ new ∧ Separated (IsTyped false) .semicolon used new := by
  fun_induction readParams t s h found with
  | case1 t h found ih =>
    refine (reads_readTyped t false).andThen fun param t₁ h₁ => ?_
    split
    · next t₂ h₂ hSemicolon =>
      refine .after (reads_accept hSemicolon).2 ((ih param t₁ h₁ t₂ h₂).imp ?_)
      rintro rest params u ⟨new, rfl, hNew⟩ _ - ⟨sep, hSep, rfl⟩ used - hParam
      exact ⟨param :: new, by simp, .more hParam hSep hNew⟩
    · apply reads_done
      intro used _ hParam
      exact ⟨[param], by simp, by simpa using Separated.one hParam⟩

theorem reads_readParamList (t s : Cursor) (h : t < s) :
    (t.readParamList s h).Reads t fun used params _ => IsParamList used params := by
  unfold readParamList
  split
  · exact reads_done .absent
  · next t₁ h₁ hOpen =>
    refine .after (reads_accept hOpen).2 ?_
    dsimp only
    split
    · refine (reads_readParams t₁ t h₁ []).andThen fun params t₂ h₂ => ?_
      refine (reads_expect t₂ .rparen).andThen fun c t₃ h₃ => ?_
      apply reads_done
      rintro _ - ⟨hc, rfl⟩ used - ⟨new, hNew, hParams⟩ _ - ⟨o, ho, rfl⟩
      rw [hNew]
      simpa using IsParamList.some ho hParams hc
    · refine Reply.Reads.andThen (h := le_of_lt (lt_trans h₁ h)) (reads_expect t₁ .rparen)
        fun c t₃ h₃ => ?_
      apply reads_done
      rintro _ - ⟨hc, rfl⟩ _ - ⟨o, ho, rfl⟩
      exact .empty ho hc

theorem reads_readProc (s : Cursor) : s.readProc.Reads s fun used proc _ => IsProc used proc := by
  refine (reads_expect s .procedureKw).andThen fun p s₁ h₁ => ?_
  refine (reads_readIdent s₁).andThen fun name s₂ h₂ => ?_
  refine (reads_readParamList s₂ s _).andThen fun params s₃ h₃ => ?_
  refine (reads_expect s₃ .semicolon).andThen fun sep s₄ h₄ => ?_
  refine (reads_readLocals s₄ s _ []).andThen fun locals s₅ h₅ => ?_
  refine (reads_readBlock s₅).andThen fun body s₆ h₆ => ?_
  split
  · next s₇ h₇ hLast =>
    refine (reads_accept hLast).2.imp ?_
    rintro _ ⟨last, hLastKind, rfl⟩ bs - hBody ls - ⟨sections, rfl, hLocals⟩ _ - ⟨hSep, rfl⟩ ps -
      hParams _ - ⟨n, hn, rfl, rfl⟩ _ - ⟨hp, rfl⟩
    simpa using IsProc.proc hp hn hParams hSep hLocals hBody (.present hLastKind)
  · apply reads_done
    rintro bs - hBody ls - ⟨sections, rfl, hLocals⟩ _ - ⟨hSep, rfl⟩ ps - hParams _ -
      ⟨n, hn, rfl, rfl⟩ _ - ⟨hp, rfl⟩
    simpa using IsProc.proc hp hn hParams hSep hLocals hBody .absent

theorem reads_readDecl (s : Cursor) :
    s.readDecl.Reads s fun used decls _ => IsDecl used decls := by
  unfold readDecl
  split
  · next hKind => exact (reads_readSection s (.inl hKind)).map fun _ _ _ h => .vars h
  · next hKind => exact (reads_readSection s (.inr hKind)).map fun _ _ _ h => .vars h
  · exact (reads_readProc s).map fun _ _ _ h => .proc h
  · exact reads_reject _

/-- Declarations that are read are those of the grammar, group by group. -/
theorem reads_readDecls (s : Cursor) (found : List Decl) :
    s.Reads (fun used => ∃ groups, (s.readDecls found).1 = found ++ groups.flatten ∧
      Repeated IsDecl used groups) (s.readDecls found).2 := by
  fun_induction readDecls s found with
  | case1 s found hStop => exact reads_refl ⟨[], by simp, .none⟩
  | case2 s found hStop decls s₁ h₁ hRead ih =>
    have hDecl := reads_readDecl s
    rw [hRead] at hDecl
    refine Reads.trans hDecl (ih.imp ?_)
    rintro rest ⟨groups, hGroups, hRest⟩ used - hUsed
    exact ⟨decls :: groups, by simp [hGroups], .more hUsed hRest⟩
  | case3 s found hStop e s₁ h₁ hRead hNext ih =>
    have hDecl := reads_readDecl s
    rw [hRead] at hDecl
    have hSkip : s.Reads (fun _ => False) (s₁.recover e) := reads_of_complaint hDecl.2 hDecl.1 rfl
    exact hSkip.trans (ih.imp fun _ _ _ _ hFalse => hFalse.elim)

/-! ### Programs -/

theorem reads_readHeader (s : Cursor) :
    s.Reads (fun used => IsHeader used s.readHeader.1) s.readHeader.2 := by
  unfold readHeader
  split
  · exact reads_refl .absent
  · next s₁ h₁ hProgram =>
    have hHeader : Reply.Reads s (fun used name _ => IsHeader used name)
        (s₁.readIdent.andThen (le_refl s₁) fun name s₂ h₂ =>
          (s₂.expect .semicolon).andThen (le_of_lt h₂) fun _ s₃ h₃ =>
            .done name s₃ (lt_trans h₃ h₂)) := by
      refine .after (reads_accept hProgram).2 ((reads_readIdent s₁).andThen fun name s₂ h₂ => ?_)
      refine (reads_expect s₂ .semicolon).andThen fun sep s₃ h₃ => ?_
      apply reads_done
      rintro _ - ⟨hSep, rfl⟩ _ - ⟨n, hn, rfl, rfl⟩ _ - ⟨p, hp, rfl⟩
      exact .named hp hn hSep
    dsimp only
    split
    · next name s₂ h₂ hDone =>
      rw [hDone] at hHeader
      exact hHeader
    · next e s₂ h₂ hFail =>
      rw [hFail] at hHeader
      exact reads_of_complaint hHeader.2 hHeader.1 rfl

/-- A program that is read without complaint is one of the grammar. -/
theorem reads_readProgram (s : Cursor) :
    s.Reads (fun used => IsProgram used s.readProgram.1) s.readProgram.2 := by
  unfold readProgram
  dsimp only
  refine (reads_readHeader s).trans ?_
  generalize s.readHeader = header
  refine (reads_readDecls header.2 []).trans ?_
  generalize header.2.readDecls [] = decls
  have hBlock := reads_readBlock decls.2
  cases hRead : decls.2.readBlock with
  | fail e s₁ h₁ =>
    rw [hRead] at hBlock
    have hBad : decls.2.Reads (fun _ => False) (s₁.report e) :=
      reads_of_complaint hBlock.2 hBlock.1 rfl
    have hDot := reads_expect (s₁.report e) .dot
    refine hBad.trans ?_
    cases hDotRead : (s₁.report e).expect .dot with
    | fail e' s₂ h₂ =>
      rw [hDotRead] at hDot
      exact reads_of_complaint hDot.2 hDot.1 rfl
    | done d s₂ h₂ =>
      rw [hDotRead] at hDot
      exact Cursor.Reads.imp hDot fun _ _ _ _ hFalse => hFalse.elim
  | done body s₁ h₁ =>
    rw [hRead] at hBlock
    refine Reads.trans hBlock ?_
    have hDot := reads_expect s₁ .dot
    cases hDotRead : s₁.expect .dot with
    | fail e s₂ h₂ =>
      rw [hDotRead] at hDot
      exact reads_of_complaint hDot.2 hDot.1 rfl
    | done d s₂ h₂ =>
      rw [hDotRead] at hDot
      refine Reads.imp hDot ?_
      rintro _ ⟨hd, rfl⟩ bs - hBody ds - ⟨groups, hGroups, hDecls⟩ hs - hHeader
      rw [hGroups]
      exact .program hHeader hDecls hBody hd

end Cursor

/-- The syntax errors of a text. -/
theorem parse_errors (source : String) :
    ∃ complaints : List Error, (parse source).2 = (tokenize source).errors ++ complaints ∧
      ∀ e ∈ complaints, e.IsUnexpected := by
  have hRead := Cursor.reads_readProgram
    ⟨(tokenize source).list, (tokenize source).size, .nowhere, []⟩
  refine ⟨_, rfl, fun e he => ?_⟩
  exact hRead.unexpected (by simp) e (List.mem_reverse.mp he)

/-- A text that is read without errors begins with a phrase of the grammar, and the tree that is
read is the one for this phrase. -/
theorem parse_sound (source : String) (h : (parse source).2 = []) :
    ∃ used, used <+: (tokenize source).list ∧ Grammar.IsProgram used (parse source).1 := by
  have hRead := Cursor.reads_readProgram
    ⟨(tokenize source).list, (tokenize source).size, .nowhere, []⟩
  have hErrors := List.reverse_eq_nil_iff.mp (List.append_eq_nil_iff.mp h).2
  obtain ⟨used, hReached, hProgram⟩ := hRead.clean hErrors
  exact ⟨used, ⟨_, hReached.rest.symm⟩, hProgram⟩

/-- A program in which an `else` has two `if`s before it, and with a token behind its end. -/
def nestedIf : String :=
  "const k: long; procedure q(a: long);
   begin if a then if k then q(-a * (a + 2) - k) else cls(); end; begin q(1) end. end"

theorem nestedIf_sound : (parse nestedIf).2 = [] ∧
    ∃ used, used <+: (tokenize nestedIf).list ∧ Grammar.IsProgram used (parse nestedIf).1 := by
  have h : (parse nestedIf).2 = [] := by decide +kernel
  exact ⟨h, parse_sound nestedIf h⟩

end ChipPascal
