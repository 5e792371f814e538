import ChipPascal.Proofs.ParserSoundness

/-!
# The parser reads every phrase

Where the tokens ahead are a phrase of the grammar and what comes behind it cannot belong to it,
the parser goes past exactly this phrase, gives its tree and complains about nothing.
-/

namespace ChipPascal

namespace Cursor

open Grammar

variable {α β : Type} {s t u v : Cursor}

/-- `u` is reached from `s` by going past the tokens `used`, without a complaint. -/
structure Passes (s u : Cursor) (used : List Token) : Prop extends Advances s u used where
  size : u.size = s.size
  errors : u.errors = s.errors

theorem Passes.eq (h : Passes s u []) : u = s := by
  obtain ⟨⟨hRest, hLast⟩, hSize, hErrors⟩ := h
  cases s
  cases u
  simp_all [lastSpan]

theorem Passes.split {xs ys : List Token} (h : Passes s u (xs ++ ys)) :
    ∃ t, Passes s t xs ∧ Passes t u ys := by
  refine ⟨{ s with rest := ys ++ u.rest, last := lastSpan s.last xs }, ⟨⟨?_, rfl⟩, rfl, rfl⟩,
    ⟨⟨rfl, ?_⟩, h.size, h.errors⟩⟩
  · rw [h.rest, List.append_assoc]
  · rw [h.last, lastSpan_append]

theorem Passes.next? {token : Token} (h : Passes s u [token]) :
    ∃ lt, s.next? = some ⟨token, u, lt⟩ := by
  obtain ⟨⟨hRest, hLast⟩, hSize, hErrors⟩ := h
  obtain ⟨rest, size, last, errors⟩ := s
  obtain ⟨rest', size', last', errors'⟩ := u
  obtain rfl : rest = token :: rest' := hRest
  obtain rfl : last' = token.span := hLast
  obtain rfl : size' = size := hSize
  obtain rfl : errors' = errors := hErrors
  exact ⟨_, rfl⟩

theorem Passes.cons {token : Token} {ts : List Token} (h : Passes s u (token :: ts)) :
    ∃ t, Passes s t [token] ∧ Passes t u ts :=
  Passes.split (show Passes s u ([token] ++ ts) from h)

/-- The kind that a cursor shows is that of the token it passes first. -/
theorem Passes.kind {token : Token} {ts : List Token} (h : Passes s u (token :: ts)) :
    s.kind = token.kind := by
  simp [Cursor.kind, current, h.rest]

end Cursor

namespace Reply

variable {α β : Type} {s t u v : Cursor}

def Yields (r : Reply α s) (a : α) (u : Cursor) : Prop := ∃ lt, r = .done a u lt

/-- What follows a reply goes on from where the reply ended. -/
theorem Yields.andThen {r : Reply α t} {a : α} {b : β} {h : t ≤ s}
    {f : (a : α) → (u : Cursor) → u < t → Reply β s} (hr : r.Yields a u)
    (hf : ∀ lt, (f a u lt).Yields b v) : (r.andThen h f).Yields b v := by
  obtain ⟨lt, rfl⟩ := hr
  exact hf lt

theorem Yields.map {r : Reply α s} {a : α} (hr : r.Yields a u) (f : α → β) :
    (r.map f).Yields (f a) u := by
  obtain ⟨lt, rfl⟩ := hr
  exact ⟨lt, rfl⟩

end Reply

namespace Cursor

open Grammar Reply

variable {s t u v : Cursor}

/-! ### Single tokens -/

theorem Passes.expectAs {token : Token} (h : Passes s u [token]) (what : String) :
    (s.expectAs token.kind what).Yields token u := by
  obtain ⟨lt, hNext⟩ := h.next?
  simp only [Cursor.expectAs, hNext, if_true]
  exact ⟨lt, rfl⟩

theorem Passes.expect {token : Token} {kind : TokenKind} (h : Passes s u [token])
    (hKind : token.kind = kind) : (s.expect kind).Yields token u :=
  hKind ▸ h.expectAs _

theorem Passes.accept {token : Token} {kind : TokenKind} (h : Passes s u [token])
    (hKind : token.kind = kind) : ∃ lt, s.accept kind = some ⟨u, lt⟩ := by
  obtain ⟨lt, hNext⟩ := h.next?
  exact ⟨lt, by simp only [Cursor.accept, hNext, hKind, if_true]⟩

theorem accept_eq_none {kind : TokenKind} (h : s.kind ≠ kind) : s.accept kind = none := by
  cases hAccept : s.accept kind with
  | none => rfl
  | some left => exact absurd (reads_accept hAccept).1 h

/-! ### Expressions -/

/-- The loop over operators ends where none of the level follows. -/
theorem readOperators_eq_done {least : Nat} (h : t < s) (hEnds : EndsLevel least t) (left : Expr) :
    t.readOperators s h least left = .done left t h := by
  rw [readOperators]
  split
  · rfl
  · next token t₁ h₁ hNext =>
    split
    · rfl
    · next op hOp =>
      rw [← kind_next hNext] at hOp
      exact if_pos (hEnds op hOp)

/-- Up to `t`, the operand `left` has been read where operators that bind at least as tightly as
`least` are wanted. -/
def HasLeft (s : Cursor) (least : Nat) (left : Expr) (t : Cursor) : Prop :=
  ∃ lt, s.readBinary least = t.readOperators s lt least left

theorem HasLeft.yields {least : Nat} {left : Expr} (h : s.HasLeft least left t)
    (hEnds : EndsLevel least t) : (s.readBinary least).Yields left t := by
  obtain ⟨lt, hEq⟩ := h
  exact ⟨lt, hEq.trans (readOperators_eq_done lt hEnds left)⟩

theorem hasLeft_of_operand {e : Expr} (h : s.readOperand.Yields e t) (least : Nat) :
    s.HasLeft least e t := by
  obtain ⟨lt, hEq⟩ := h
  exact ⟨lt, by rw [readBinary, hEq, andThen_done]⟩

/-- The left operand grows by an operator and what this one takes for its right operand. -/
theorem HasLeft.binary {least : Nat} {op : BinaryOp} {left right : Expr} {token : Token}
    (h : s.HasLeft least left t) (hToken : Passes t u [token])
    (hOp : token.kind.binaryOp? = some op) (hLeast : least ≤ op.precedence)
    (hRight : (u.readBinary (op.precedence + 1)).Yields right v) :
    s.HasLeft least (.binary op left right (left.span.cover right.span)) v := by
  obtain ⟨lt, hEq⟩ := h
  obtain ⟨lt₁, hNext⟩ := hToken.next?
  obtain ⟨lt₂, hRead⟩ := hRight
  refine ⟨lt_trans₃ lt₂ lt₁ lt, ?_⟩
  rw [hEq, readOperators, hNext]
  simp only [hOp, if_neg (Nat.not_lt.mpr hLeast), hRead, andThen_done]

mutual

/-- A sum is taken in by the loop from the left, one operator at a time. -/
theorem hasLeft_expr {s u : Cursor} {ts : List Token} {e : Expr} (h : IsExpr ts e)
    (hs : Passes s u ts) (hEnds : EndsLevel 2 u) {least : Nat} (hLeast : least ≤ 1) :
    s.HasLeft least e u := by
  cases h with
  | term hTerm => exact hasLeft_term hTerm hs (by omega)
  | @operation token op ls rs left right hLeft hOp hAddSub hRight =>
    obtain ⟨t, hsLeft, hsRest⟩ := hs.split
    obtain ⟨t₁, hsOp, hsRight⟩ := hsRest.cons
    have hPrecedence : op.precedence = 1 := by rcases hAddSub with rfl | rfl <;> rfl
    have hNext : EndsLevel 2 t := by
      intro op' hOp'
      rw [hsRest.kind, hOp] at hOp'
      cases hOp'
      omega
    have hLess : (ls ++ token :: rs).length = ls.length + (rs.length + 1) := by simp
    refine (hasLeft_expr hLeft hsLeft hNext hLeast).binary hsOp hOp (by omega) ?_
    rw [hPrecedence]
    exact (hasLeft_term hRight hsRight (Nat.le_refl 2)).yields hEnds
termination_by 4 * ts.length + 3
decreasing_by all_goals (subst_vars; omega)

theorem hasLeft_term {s u : Cursor} {ts : List Token} {e : Expr} (h : IsTerm ts e)
    (hs : Passes s u ts) {least : Nat} (hLeast : least ≤ 2) : s.HasLeft least e u := by
  cases h with
  | unary hUnary => exact hasLeft_of_operand (yields_readOperand hUnary hs) least
  | @operation token op ls rs left right hLeft hOp hMulDiv hRight =>
    obtain ⟨t, hsLeft, hsRest⟩ := hs.split
    obtain ⟨t₁, hsOp, hsRight⟩ := hsRest.cons
    have hPrecedence : op.precedence = 2 := by rcases hMulDiv with rfl | rfl <;> rfl
    have hEnds : EndsLevel 3 u := fun op _ => by cases op <;> decide
    have hLess : (ls ++ token :: rs).length = ls.length + (rs.length + 1) := by simp
    refine (hasLeft_term hLeft hsLeft hLeast).binary hsOp hOp (by omega) ?_
    rw [hPrecedence]
    exact (hasLeft_of_operand (yields_readOperand hRight hsRight) 3).yields hEnds
termination_by 4 * ts.length + 2
decreasing_by all_goals (subst_vars; omega)

theorem yields_readOperand {s u : Cursor} {ts : List Token} {e : Expr} (h : IsUnary ts e)
    (hs : Passes s u ts) : s.readOperand.Yields e u := by
  cases h with
  | primary hPrimary => exact yields_primary hPrimary hs
  | @sign token op ts e hOp hOperand =>
    obtain ⟨t, hsSign, hsOperand⟩ := hs.cons
    obtain ⟨lt, hNext⟩ := hsSign.next?
    have hLess : (token :: ts).length = ts.length + 1 := List.length_cons
    have hRead := yields_readOperand hOperand hsOperand
    rw [readOperand, hNext]
    cases hKind : token.kind <;> rw [hKind] at hOp <;> cases hOp <;> simp only [hKind] <;>
      exact hRead.andThen fun _ => ⟨_, rfl⟩
termination_by 4 * ts.length + 1
decreasing_by all_goals (subst_vars; omega)

theorem yields_primary {s u : Cursor} {ts : List Token} {e : Expr} (h : IsPrimary ts e)
    (hs : Passes s u ts) : s.readOperand.Yields e u := by
  cases h with
  | number hKind =>
    obtain ⟨lt, hNext⟩ := hs.next?
    rw [readOperand, hNext]
    simp only [hKind]
    exact ⟨lt, rfl⟩
  | name hKind =>
    obtain ⟨lt, hNext⟩ := hs.next?
    rw [readOperand, hNext]
    simp only [hKind]
    exact ⟨lt, rfl⟩
  | @parens o c ts _ hOpen hExpr hClose =>
    obtain ⟨t, hsOpen, hsRest⟩ := hs.cons
    obtain ⟨t₁, hsExpr, hsClose⟩ := hsRest.split
    obtain ⟨lt, hNext⟩ := hsOpen.next?
    have hEnds (least : Nat) : EndsLevel least t₁ := by
      intro op hOp
      rw [hsClose.kind, hClose] at hOp
      cases hOp
    have hLess : (o :: (ts ++ [c])).length = ts.length + 2 := by simp
    have hRead := (hasLeft_expr hExpr hsExpr (hEnds 2) (Nat.zero_le 1)).yields (hEnds 0)
    rw [readOperand, hNext]
    simp only [hOpen]
    exact hRead.andThen fun _ => (hsClose.expect hClose).andThen fun _ => ⟨_, rfl⟩
termination_by 4 * ts.length
decreasing_by all_goals (subst_vars; omega)

end

def EndsExpr (s : Cursor) : Prop := s.kind.binaryOp? = none

theorem EndsExpr.endsLevel (h : s.EndsExpr) (least : Nat) : EndsLevel least s := by
  intro op hOp
  rw [h] at hOp
  cases hOp

/-- What the grammar has for an expression is read as one, if no operator follows. -/
theorem yields_readExpr {ts : List Token} {e : Expr} (h : IsExpr ts e) (hs : Passes s u ts)
    (hEnds : u.EndsExpr) : s.readExpr.Yields e u :=
  (hasLeft_expr h hs (hEnds.endsLevel 2) (Nat.zero_le 1)).yields (hEnds.endsLevel 0)

theorem not_yields_readExpr {e : Expr} (h : s.kind = .rparen) : ¬ s.readExpr.Yields e u := by
  rintro ⟨lt, hEq⟩
  rw [readExpr, readBinary, readOperand] at hEq
  cases hNext : s.next? with
  | none => simp [hNext, reject] at hEq
  | some step =>
    rw [kind_next hNext] at h
    simp [hNext, h, reject] at hEq

/-! ### Statements -/

def FollowsStmt (kind : TokenKind) : Prop := kind = .semicolon ∨ kind = .endKw ∨ kind = .elseKw

theorem FollowsStmt.endsExpr (h : FollowsStmt s.kind) : s.EndsExpr := by
  rcases h with h | h | h <;> simp [EndsExpr, h, TokenKind.binaryOp?]

/-- Arguments do not begin with what closes their list. -/
theorem yields_readArgs {ts : List Token} {args : List Expr}
    (h : Separated IsExpr .comma ts args) (hs : Passes t u ts) (hClose : u.kind = .rparen)
    (lt : t < s) (found : List Expr) :
    t.kind ≠ .rparen ∧ (t.readArgs s lt found).Yields (found.reverse ++ args) u := by
  induction h generalizing t found with
  | one hArg =>
    have hRead := yields_readExpr hArg hs (by simp [EndsExpr, hClose, TokenKind.binaryOp?])
    refine ⟨fun hKind => not_yields_readExpr hKind hRead, ?_⟩
    rw [readArgs]
    refine hRead.andThen fun lt₁ => ?_
    rw [accept_eq_none (by simp [hClose])]
    exact ⟨lt_trans lt₁ lt, by simp⟩
  | more hArg hComma _ ih =>
    obtain ⟨t₁, hsArg, hsMore⟩ := hs.split
    obtain ⟨t₂, hsComma, hsRest⟩ := hsMore.cons
    have hNext : t₁.EndsExpr := by rw [EndsExpr, hsMore.kind, hComma]; rfl
    obtain ⟨lt₂, hAccept⟩ := hsComma.accept hComma
    have hRead := yields_readExpr hArg hsArg hNext
    refine ⟨fun hKind => not_yields_readExpr hKind hRead, ?_⟩
    rw [readArgs]
    refine hRead.andThen fun lt₁ => ?_
    rw [hAccept]
    simpa using (ih hsRest (lt_trans₃ lt₂ lt₁ lt) (_ :: found)).2

/-- The parentheses of a call may be left out if there are no arguments. -/
theorem yields_readCall {ts : List Token} {args : List Expr} (h : IsArguments ts args)
    (hs : Passes t u ts) (hFollows : FollowsStmt u.kind) (lt : t < s) (name : Ident) :
    (t.readCall s lt name).Yields (.call name args) u := by
  unfold readCall
  cases h with
  | absent =>
    have hOpen : t.kind ≠ .lparen := by
      rw [← hs.eq]
      rcases hFollows with h | h | h <;> simp [h]
    rw [accept_eq_none hOpen, hs.eq]
    exact ⟨lt, rfl⟩
  | empty hOpen hClose =>
    obtain ⟨t₁, hsOpen, hsClose⟩ := hs.cons
    obtain ⟨lt₁, hAcceptOpen⟩ := hsOpen.accept hOpen
    obtain ⟨lt₂, hAcceptClose⟩ := hsClose.accept hClose
    rw [hAcceptOpen]
    simp only [hAcceptClose]
    exact ⟨_, rfl⟩
  | some hOpen hArgs hClose =>
    obtain ⟨t₁, hsOpen, hsRest⟩ := hs.cons
    obtain ⟨t₂, hsArgs, hsClose⟩ := hsRest.split
    obtain ⟨lt₁, hAcceptOpen⟩ := hsOpen.accept hOpen
    obtain ⟨hNotClose, hRead⟩ := yields_readArgs hArgs hsArgs (hsClose.kind.trans hClose) lt₁ []
    rw [hAcceptOpen]
    simp only [accept_eq_none hNotClose]
    refine hRead.andThen fun lt₂ => ?_
    exact (hsClose.expect hClose).andThen fun lt₃ => ⟨_, rfl⟩

/-- A block is closed where its `end` stands. -/
theorem yields_closeBlock {e : Token} (hs : Passes t u [e]) (he : e.kind = .endKw) (lt : t < s)
    (start : Span) (found : List Stmt) :
    (t.readStmts s lt start found).Yields ⟨found.reverse, start.cover e.span⟩ u := by
  rw [readStmts, dif_pos (.inl (hs.kind.trans he))]
  exact (hs.expect he).andThen fun _ => ⟨_, rfl⟩

/-- A statement does not begin where a block ends. -/
theorem not_closed_of_yields {stmt : Stmt} (h : t.readStmt.Yields stmt u) :
    ¬ (t.kind = .endKw ∨ t.kind = .eof) := by
  obtain ⟨lt, hEq⟩ := h
  intro hClose
  rw [readStmt] at hEq
  cases hNext : t.next? with
  | none => simp [hNext, reject] at hEq
  | some step =>
    rw [kind_next hNext] at hClose
    rcases hClose with h | h <;> simp [hNext, h, reject] at hEq

section Loop

variable {start : Span} {found : List Stmt} {stmt : Stmt} {block : Block} {w : Cursor}

/-- The statements go on behind a semicolon. -/
theorem yields_semicolon {sep : Token} (h : t.readStmt.Yields stmt u) (hs : Passes u v [sep])
    (hSep : sep.kind = .semicolon) (lt : t < s)
    (hRest : ∀ lt', (v.readStmts s lt' start (stmt :: found)).Yields block w) :
    (t.readStmts s lt start found).Yields block w := by
  obtain ⟨lt₁, hEq⟩ := id h
  obtain ⟨lt₂, hAccept⟩ := hs.accept hSep
  rw [readStmts, dif_neg (not_closed_of_yields h)]
  simp only [hEq, hAccept]
  exact hRest _

/-- The last statement may stand before the end of its block. -/
theorem yields_last (h : t.readStmt.Yields stmt u) (hEnd : u.kind = .endKw) (lt : t < s)
    (hRest : ∀ lt', (u.readStmts s lt' start (stmt :: found)).Yields block w) :
    (t.readStmts s lt start found).Yields block w := by
  obtain ⟨lt₁, hEq⟩ := id h
  rw [readStmts, dif_neg (not_closed_of_yields h)]
  simp only [hEq, accept_eq_none (show u.kind ≠ .semicolon by simp [hEnd]), hEnd, if_true]
  exact hRest _

end Loop

/-- A call is not taken for an assignment. -/
theorem kind_ne_becomes {ts : List Token} {args : List Expr} (h : IsArguments ts args)
    (hs : Passes t u ts) (hFollows : FollowsStmt u.kind) : t.kind ≠ .becomes := by
  cases h with
  | absent =>
    rw [← hs.eq]
    rcases hFollows with h | h | h <;> simp [h]
  | empty hOpen _ => simp [hs.kind, hOpen]
  | some hOpen _ _ => simp [hs.kind, hOpen]

mutual

/-- What the grammar has for a statement is read as one, if no `else` follows that an open `if`
would take. -/
theorem yields_readStmt {s u : Cursor} {ts : List Token} {stmt : Stmt} (h : IsStmt ts stmt)
    (hs : Passes s u ts) (hFollows : FollowsStmt u.kind)
    (hElse : EndsOpen stmt → u.kind ≠ .elseKw) : s.readStmt.Yields stmt u := by
  cases h with
  | @block _ block hBlock =>
    cases hBlock with
    | @compound b e ts stmts hb hBody he =>
      obtain ⟨t, hsBegin, hsRest⟩ := hs.cons
      obtain ⟨lt, hNext⟩ := hsBegin.next?
      have hLess : (b :: (ts ++ [e])).length = ts.length + 2 := by simp
      have hRead := yields_readStmts hBody hsRest he lt b.span []
      rw [readStmt, hNext]
      simp only [hb]
      simpa [extent, lastSpan] using hRead.map fun block => Stmt.block block.stmts block.span
  | @assign n a ts e hn ha hValue =>
    obtain ⟨t, hsName, hsRest⟩ := hs.cons
    obtain ⟨t₁, hsBecomes, hsValue⟩ := hsRest.cons
    obtain ⟨lt, hNext⟩ := hsName.next?
    obtain ⟨lt₁, hAccept⟩ := hsBecomes.accept ha
    rw [readStmt, hNext]
    simp only [hn, hAccept]
    exact (yields_readExpr hValue hsValue hFollows.endsExpr).andThen fun _ => ⟨_, rfl⟩
  | @call n ts args hn hArgs =>
    obtain ⟨t, hsName, hsArgs⟩ := hs.cons
    obtain ⟨lt, hNext⟩ := hsName.next?
    rw [readStmt, hNext]
    simp only [hn, accept_eq_none (kind_ne_becomes hArgs hsArgs hFollows)]
    exact yields_readCall hArgs hsArgs hFollows lt _
  | @ifThen i th cs ys cond yes hi hCond hth hYes =>
    obtain ⟨t, hsIf, hsRest⟩ := hs.cons
    obtain ⟨t₁, hsCond, hsThen⟩ := hsRest.split
    obtain ⟨t₂, hsTh, hsYes⟩ := hsThen.cons
    obtain ⟨lt, hNext⟩ := hsIf.next?
    have hEnds : t₁.EndsExpr := by rw [EndsExpr, hsThen.kind, hth]; rfl
    have hNotElse := hElse trivial
    have hLess : (i :: (cs ++ th :: ys)).length = cs.length + (ys.length + 1) + 1 := by simp
    have hRead := yields_readStmt hYes hsYes hFollows fun _ => hNotElse
    rw [readStmt, hNext]
    simp only [hi]
    refine (yields_readExpr hCond hsCond hEnds).andThen fun _ => ?_
    refine (hsTh.expect hth).andThen fun _ => ?_
    refine hRead.andThen fun _ => ?_
    rw [accept_eq_none hNotElse]
    exact ⟨_, by rw [hs.last]; rfl⟩
  | @ifElse i th el cs ys ns cond yes no hi hCond hth hYes hClosed hel hNo =>
    obtain ⟨t, hsIf, hsRest⟩ := hs.cons
    obtain ⟨t₁, hsCond, hsThen⟩ := hsRest.split
    obtain ⟨t₂, hsTh, hsBranches⟩ := hsThen.cons
    obtain ⟨t₃, hsYes, hsElse⟩ := hsBranches.split
    obtain ⟨t₄, hsEl, hsNo⟩ := hsElse.cons
    obtain ⟨lt, hNext⟩ := hsIf.next?
    obtain ⟨lt₄, hAccept⟩ := hsEl.accept hel
    have hEnds : t₁.EndsExpr := by rw [EndsExpr, hsThen.kind, hth]; rfl
    have hElseNext : t₃.kind = .elseKw := hsElse.kind.trans hel
    have hLess : (i :: (cs ++ th :: (ys ++ el :: ns))).length =
        cs.length + (ys.length + (ns.length + 1) + 1) + 1 := by simp
    have hReadYes := yields_readStmt hYes hsYes (.inr (.inr hElseNext)) fun hOpen =>
      absurd hOpen hClosed
    have hReadNo := yields_readStmt hNo hsNo hFollows hElse
    rw [readStmt, hNext]
    simp only [hi]
    refine (yields_readExpr hCond hsCond hEnds).andThen fun _ => ?_
    refine (hsTh.expect hth).andThen fun _ => ?_
    refine hReadYes.andThen fun _ => ?_
    rw [hAccept]
    exact hReadNo.andThen fun _ => ⟨_, by rw [hs.last]; rfl⟩
termination_by 3 * ts.length
decreasing_by all_goals (subst_vars; omega)

theorem yields_readStmts {t s u : Cursor} {ts : List Token} {stmts : List Stmt} {e : Token}
    (h : IsBody ts stmts) (hs : Passes t u (ts ++ [e])) (he : e.kind = .endKw) (lt : t < s)
    (start : Span) (found : List Stmt) :
    (t.readStmts s lt start found).Yields ⟨found.reverse ++ stmts, start.cover e.span⟩ u := by
  cases h with
  | empty => simpa using yields_closeBlock hs he lt start found
  | @stmts ts last _ hStmts hLast =>
    have hLess : (ts ++ last).length = ts.length + last.length := by simp
    rw [List.append_assoc] at hs
    exact yields_separated hStmts hLast hs he lt start found
termination_by 3 * ts.length + 2
decreasing_by all_goals (subst_vars; omega)

/-- Statements are read up to `end`, with or without a semicolon in front of it. -/
theorem yields_separated {t s u : Cursor} {ts last : List Token} {stmts : List Stmt} {e : Token}
    (h : Separated IsStmt .semicolon ts stmts) (hLast : Optional .semicolon last)
    (hs : Passes t u (ts ++ (last ++ [e]))) (he : e.kind = .endKw) (lt : t < s) (start : Span)
    (found : List Stmt) :
    (t.readStmts s lt start found).Yields ⟨found.reverse ++ stmts, start.cover e.span⟩ u := by
  cases h with
  | @one _ stmt hStmt =>
    obtain ⟨t₁, hsStmt, hsRest⟩ := hs.split
    cases hLast with
    | absent =>
      have hEnd : t₁.kind = .endKw := hsRest.kind.trans he
      have hRead := yields_readStmt hStmt hsStmt (.inr (.inl hEnd)) fun _ => by simp [hEnd]
      refine yields_last hRead hEnd lt fun lt' => ?_
      simpa using yields_closeBlock hsRest he lt' start (stmt :: found)
    | @present sep hSep =>
      obtain ⟨t₂, hsSep, hsEnd⟩ := hsRest.cons
      have hNext : t₁.kind = .semicolon := hsSep.kind.trans hSep
      have hRead := yields_readStmt hStmt hsStmt (.inl hNext) fun _ => by simp [hNext]
      refine yields_semicolon hRead hsSep hSep lt fun lt' => ?_
      simpa using yields_closeBlock hsEnd he lt' start (stmt :: found)
  | @more sep ts rest stmt stmts hStmt hSep hStmts =>
    rw [List.append_assoc] at hs
    obtain ⟨t₁, hsStmt, hsRest⟩ := hs.split
    obtain ⟨t₂, hsSep, hsStmts⟩ := hsRest.cons
    have hNext : t₁.kind = .semicolon := hsSep.kind.trans hSep
    have hLess : (ts ++ sep :: rest).length = ts.length + (rest.length + 1) := by simp
    have hRead := yields_readStmt hStmt hsStmt (.inl hNext) fun _ => by simp [hNext]
    refine yields_semicolon hRead hsSep hSep lt fun lt' => ?_
    simpa using yields_separated hStmts hLast hsStmts he lt' start (stmt :: found)
termination_by 3 * ts.length + 1
decreasing_by all_goals (subst_vars; omega)

end

theorem yields_readBlock {ts : List Token} {block : Block} (h : IsBlock ts block)
    (hs : Passes s u ts) : s.readBlock.Yields block u := by
  cases h with
  | @compound b e ts stmts hb hBody he =>
    obtain ⟨t, hsBegin, hsRest⟩ := hs.cons
    refine (hsBegin.expect hb).andThen fun lt => ?_
    simpa [extent, lastSpan] using
      yields_readStmts hBody hsRest he lt b.span []

/-! ### Declarations -/

theorem yields_readTyped {isConst : Bool} {ts : List Token} {decl : VarDecl}
    (h : IsTyped isConst ts decl) (hs : Passes s u ts) : (s.readTyped isConst).Yields decl u := by
  cases h with
  | typed hn hc hType =>
    obtain ⟨t, hsName, hsRest⟩ := hs.cons
    obtain ⟨t₁, hsColon, hsType⟩ := hsRest.cons
    refine ((hsName.expect hn).map _).andThen fun _ => ?_
    refine (hsColon.expect hc).andThen fun _ => ?_
    exact Yields.andThen (hType ▸ hsType.expectAs _) fun _ => ⟨_, rfl⟩

theorem yields_readVarDecl {isConst : Bool} {ts : List Token} {decl : VarDecl}
    (h : IsVarDecl isConst ts decl) (hs : Passes s u ts) :
    (s.readVarDecl isConst).Yields decl u := by
  cases h with
  | ended hTyped hSep =>
    obtain ⟨t, hsTyped, hsSep⟩ := hs.split
    exact (yields_readTyped hTyped hsTyped).andThen fun _ =>
      (hsSep.expect hSep).andThen fun _ => ⟨_, rfl⟩

/-- A declaration shows by its first two tokens. -/
theorem opens_varDecl {isConst : Bool} {ts rest : List Token} {decl : VarDecl}
    (h : IsVarDecl isConst ts decl) (hs : Passes s u (ts ++ rest)) :
    s.kind = .ident ∧ s.nextKind = .colon := by
  cases h with
  | ended hTyped hSep =>
    cases hTyped with
    | typed hn hc hType => simp [Cursor.kind, nextKind, current, hs.rest, hn, hc]

theorem yields_readVarDecls {isConst : Bool} {ts : List Token} {decls : List VarDecl}
    (h : Repeated (IsVarDecl isConst) ts decls) (hs : Passes t u ts) (hEnds : u.kind ≠ .ident)
    (lt : t < s) (found : List VarDecl) :
    (t.readVarDecls s lt isConst found).Yields (found.reverse ++ decls) u := by
  induction h generalizing t found with
  | none =>
    rw [hs.eq] at hEnds ⊢
    rw [readVarDecls, if_neg fun hOpens => hEnds hOpens.1]
    exact ⟨lt, by simp⟩
  | more hDecl _ ih =>
    obtain ⟨t₁, hsDecl, hsRest⟩ := id hs.split
    rw [readVarDecls, if_pos (opens_varDecl hDecl hs)]
    refine (yields_readVarDecl hDecl hsDecl).andThen fun lt₁ => ?_
    simpa using ih hsRest (lt_trans lt₁ lt) (_ :: found)

theorem kind_section {ts rest : List Token} {decls : List VarDecl} (h : IsSection ts decls)
    (hs : Passes s u (ts ++ rest)) : s.kind = .varKw ∨ s.kind = .constKw := by
  cases h with
  | vars hk _ _ => exact .inl (hs.kind.trans hk)
  | consts hk _ _ => exact .inr (hs.kind.trans hk)

theorem yields_readSection {ts : List Token} {decls : List VarDecl} (h : IsSection ts decls)
    (hs : Passes s u ts) (hEnds : u.kind ≠ .ident) : s.readSection.Yields decls u := by
  have hSection {k : Token} {ts : List Token} {decls : List VarDecl} (hs : Passes s u (k :: ts))
      (hDecls : Repeated (IsVarDecl (k.kind = .constKw)) ts decls) (hSome : decls ≠ []) :
      s.readSection.Yields decls u := by
    cases hDecls with
    | none => exact absurd rfl hSome
    | more hDecl hMore =>
      obtain ⟨t, hsWord, hsRest⟩ := hs.cons
      obtain ⟨t₁, hsDecl, hsMore⟩ := hsRest.split
      obtain ⟨lt, hNext⟩ := hsWord.next?
      unfold readSection
      rw [hNext]
      refine (yields_readVarDecl hDecl hsDecl).andThen fun lt₁ => ?_
      simpa using yields_readVarDecls hMore hsMore hEnds (lt_trans lt₁ lt) [_]
  cases h with
  | vars hk hDecls hSome => exact hSection hs (by simpa [hk] using hDecls) hSome
  | consts hk hDecls hSome => exact hSection hs (by simpa [hk] using hDecls) hSome

/-- Sections begin with their words, so none goes on with the names of the next. -/
theorem kind_sections {ts : List Token} {sections : List (List VarDecl)}
    (h : Repeated IsSection ts sections) (hs : Passes t u ts) (hBody : u.kind = .beginKw) :
    t.kind ≠ .ident := by
  cases h with
  | none => simp [← hs.eq, hBody]
  | more hSection _ => rcases kind_section hSection hs with h | h <;> simp [h]

theorem yields_readLocals {ts : List Token} {sections : List (List VarDecl)}
    (h : Repeated IsSection ts sections) (hs : Passes t u ts) (hBody : u.kind = .beginKw)
    (lt : t < s) (found : List VarDecl) :
    (t.readLocals s lt found).Yields (found ++ sections.flatten) u := by
  induction h generalizing t found with
  | none =>
    rw [hs.eq] at hBody ⊢
    rw [readLocals, if_neg (by simp [hBody])]
    exact ⟨lt, by simp⟩
  | @more _ _ decls _ hSection hSections ih =>
    obtain ⟨t₁, hsSection, hsRest⟩ := id hs.split
    have hRead := yields_readSection hSection hsSection (kind_sections hSections hsRest hBody)
    rw [readLocals, if_pos (kind_section hSection hs)]
    refine hRead.andThen fun lt₁ => ?_
    simpa using ih hsRest (lt_trans lt₁ lt) (found ++ decls)

theorem yields_readParams {ts : List Token} {params : List VarDecl}
    (h : Separated (IsTyped false) .semicolon ts params) (hs : Passes t u ts)
    (hClose : u.kind = .rparen) (lt : t < s) (found : List VarDecl) :
    (t.readParams s lt found).Yields (found.reverse ++ params) u := by
  induction h generalizing t found with
  | one hParam =>
    rw [readParams]
    refine (yields_readTyped hParam hs).andThen fun lt₁ => ?_
    rw [accept_eq_none (by simp [hClose])]
    exact ⟨lt_trans lt₁ lt, by simp⟩
  | more hParam hSep _ ih =>
    obtain ⟨t₁, hsParam, hsMore⟩ := hs.split
    obtain ⟨t₂, hsSep, hsRest⟩ := hsMore.cons
    obtain ⟨lt₂, hAccept⟩ := hsSep.accept hSep
    rw [readParams]
    refine (yields_readTyped hParam hsParam).andThen fun lt₁ => ?_
    rw [hAccept]
    simpa using ih hsRest (lt_trans₃ lt₂ lt₁ lt) (_ :: found)

theorem kind_params {ts : List Token} {params : List VarDecl}
    (h : Separated (IsTyped false) .semicolon ts params) (hs : Passes t u ts) :
    t.kind = .ident := by
  cases h with
  | one hParam =>
    cases hParam with
    | typed hn _ _ => exact hs.kind.trans hn
  | more hParam _ _ =>
    cases hParam with
    | typed hn _ _ => exact hs.kind.trans hn

/-- The parentheses may be left out if there are no parameters. -/
theorem yields_readParamList {ts : List Token} {params : List VarDecl} (h : IsParamList ts params)
    (hs : Passes t u ts) (hEnds : u.kind = .semicolon) (lt : t < s) :
    (t.readParamList s lt).Yields params u := by
  unfold readParamList
  cases h with
  | absent =>
    rw [hs.eq] at hEnds ⊢
    rw [accept_eq_none (by simp [hEnds])]
    exact ⟨lt, rfl⟩
  | empty hOpen hClose =>
    obtain ⟨t₁, hsOpen, hsClose⟩ := hs.cons
    obtain ⟨lt₁, hAccept⟩ := hsOpen.accept hOpen
    have hKind : t₁.kind ≠ .ident := by simp [hsClose.kind, hClose]
    rw [hAccept]
    simp only [if_neg hKind, andThen_done]
    exact (hsClose.expect hClose).andThen fun _ => ⟨_, rfl⟩
  | some hOpen hParams hClose =>
    obtain ⟨t₁, hsOpen, hsRest⟩ := hs.cons
    obtain ⟨t₂, hsParams, hsClose⟩ := hsRest.split
    obtain ⟨lt₁, hAccept⟩ := hsOpen.accept hOpen
    have hRead := yields_readParams hParams hsParams (hsClose.kind.trans hClose) lt₁ []
    rw [hAccept]
    simp only [if_pos (kind_params hParams hsParams)]
    exact hRead.andThen fun _ => (hsClose.expect hClose).andThen fun _ => ⟨_, rfl⟩

theorem yields_readProc {ts : List Token} {proc : ProcDecl} (h : IsProc ts proc)
    (hs : Passes s u ts) (hEnds : u.kind ≠ .semicolon) : s.readProc.Yields proc u := by
  cases h with
  | @proc p n sep ps ls bs last params sections body hp hn hParams hSep hLocals hBody hLast =>
    obtain ⟨t₁, hsProc, hs₁⟩ := hs.cons
    obtain ⟨t₂, hsName, hs₂⟩ := hs₁.cons
    obtain ⟨t₃, hsParams, hs₃⟩ := hs₂.split
    obtain ⟨t₄, hsSep, hs₄⟩ := hs₃.cons
    obtain ⟨t₅, hsLocals, hs₅⟩ := hs₄.split
    obtain ⟨t₆, hsBody, hsLast⟩ := hs₅.split
    have hBegin : t₅.kind = .beginKw := by
      cases hBody with
      | compound hb _ _ => exact hs₅.kind.trans hb
    refine (hsProc.expect hp).andThen fun lt₁ => ?_
    refine ((hsName.expect hn).map _).andThen fun lt₂ => ?_
    refine (yields_readParamList hParams hsParams (hs₃.kind.trans hSep) _).andThen fun lt₃ => ?_
    refine (hsSep.expect hSep).andThen fun lt₄ => ?_
    refine (yields_readLocals hLocals hsLocals hBegin _ []).andThen fun lt₅ => ?_
    refine (yields_readBlock hBody hsBody).andThen fun lt₆ => ?_
    cases hLast with
    | absent =>
      rw [hsLast.eq] at hEnds ⊢
      rw [accept_eq_none hEnds]
      exact ⟨_, rfl⟩
    | present hSemicolon =>
      obtain ⟨lt₇, hAccept⟩ := hsLast.accept hSemicolon
      rw [hAccept]
      exact ⟨_, rfl⟩

def OpensDecl (kind : TokenKind) : Prop :=
  kind = .varKw ∨ kind = .constKw ∨ kind = .procedureKw

theorem opensDecl_of_isDecl {ts rest : List Token} {decls : List Decl} (h : IsDecl ts decls)
    (hs : Passes s u (ts ++ rest)) : OpensDecl s.kind := by
  cases h with
  | vars hSection => exact (kind_section hSection hs).imp_right .inl
  | proc hProc =>
    cases hProc with
    | proc hp => exact .inr (.inr (hs.kind.trans hp))

theorem yields_readDecl {ts : List Token} {decls : List Decl} (h : IsDecl ts decls)
    (hs : Passes s u ts) (hEnds : OpensDecl u.kind ∨ u.kind = .beginKw) :
    s.readDecl.Yields decls u := by
  have hNext : u.kind ≠ .ident ∧ u.kind ≠ .semicolon := by
    rcases hEnds with (h | h | h) | h <;> simp [h]
  unfold readDecl
  cases h with
  | vars hSection =>
    have hRead := (yields_readSection hSection hs hNext.1).map (·.map Decl.var)
    have hWhole : Passes s u (ts ++ []) := by rwa [List.append_nil]
    rcases kind_section hSection hWhole with h | h <;> simpa only [h] using hRead
  | proc hProc =>
    have hRead := (yields_readProc hProc hs hNext.2).map fun proc => [Decl.proc proc]
    cases hProc with
    | proc hp => simpa only [hs.kind, hp] using hRead

theorem readDecls_eq {ts : List Token} {groups : List (List Decl)}
    (h : Repeated IsDecl ts groups) (hs : Passes s u ts) (hBody : u.kind = .beginKw)
    (found : List Decl) :
    s.readDecls found = (found ++ groups.flatten, u) := by
  induction h generalizing s found with
  | none =>
    rw [hs.eq] at hBody ⊢
    rw [readDecls, dif_pos (.inl hBody)]
    simp
  | @more _ _ decls groups hDecl hDecls ih =>
    obtain ⟨t, hsDecl, hsRest⟩ := id hs.split
    have hNext : OpensDecl t.kind ∨ t.kind = .beginKw := by
      cases hDecls with
      | none => exact .inr (hsRest.eq ▸ hBody)
      | more hDecl' _ => exact .inl (opensDecl_of_isDecl hDecl' hsRest)
    have hOpen : ¬ (s.kind = .beginKw ∨ s.kind = .endKw ∨ s.kind = .eof) := by
      rcases opensDecl_of_isDecl hDecl hs with h | h | h <;> simp [h]
    obtain ⟨lt, hRead⟩ := yields_readDecl hDecl hsDecl hNext
    rw [readDecls, dif_neg hOpen]
    simp only [hRead]
    rw [ih hsRest]
    simp

/-! ### Programs -/

/-- A header is read as the grammar has it, also where there is none. -/
theorem readHeader_eq {ts : List Token} {name : Ident} (h : IsHeader ts name)
    (hs : Passes s u ts) (hEnds : u.kind ≠ .programKw) : s.readHeader = (name, u) := by
  unfold readHeader
  cases h with
  | absent =>
    rw [hs.eq] at hEnds ⊢
    rw [accept_eq_none hEnds]
  | named hp hn hSep =>
    obtain ⟨t₁, hsProgram, hs₁⟩ := hs.cons
    obtain ⟨t₂, hsName, hsSep⟩ := hs₁.cons
    obtain ⟨lt₁, hAccept⟩ := hsProgram.accept hp
    obtain ⟨lt₂, hName⟩ := (hsName.expect hn).map fun t => (⟨t.text, t.span⟩ : Ident)
    obtain ⟨lt₃, hSemicolon⟩ := hsSep.expect hSep
    simp only [hAccept, readIdent, hName, andThen_done, hSemicolon]
    rfl

/-- A program is read up to its dot, whatever follows. -/
theorem readProgram_eq {ts : List Token} {program : Program} (h : IsProgram ts program)
    (hs : Passes s u ts) : s.readProgram = (program, u) := by
  cases h with
  | @program d hds ds bs name groups body hHeader hDecls hBody hDot =>
    obtain ⟨t₁, hsHeader, hs₁⟩ := hs.split
    obtain ⟨t₂, hsDecls, hs₂⟩ := hs₁.split
    obtain ⟨t₃, hsBody, hsDot⟩ := hs₂.split
    have hBegin : t₂.kind = .beginKw := by
      cases hBody with
      | compound hb _ _ => exact hs₂.kind.trans hb
    have hNext : t₁.kind ≠ .programKw := by
      cases hDecls with
      | none => simp [← hsDecls.eq, hBegin]
      | more hDecl _ => rcases opensDecl_of_isDecl hDecl hsDecls with h | h | h <;> simp [h]
    obtain ⟨lt, hBlock⟩ := yields_readBlock hBody hsBody
    obtain ⟨lt', hEnd⟩ := hsDot.expect hDot
    have hGroups := readDecls_eq hDecls hsDecls hBegin []
    unfold readProgram
    rw [readHeader_eq hHeader hsHeader hNext]
    dsimp only
    rw [hGroups, List.nil_append]
    dsimp only
    rw [hBlock]
    dsimp only
    rw [hEnd]

end Cursor

/-- A text whose tokens begin with a phrase of the grammar is read as the tree of this phrase. -/
theorem parse_of_isProgram {source : String} {used : List Token} {program : Program}
    (hUsed : used <+: (tokenize source).list) (h : Grammar.IsProgram used program) :
    parse source = (program, (tokenize source).errors) := by
  obtain ⟨rest, hRest⟩ := hUsed
  have hs : Cursor.Passes ⟨(tokenize source).list, (tokenize source).size, .nowhere, []⟩
      ⟨rest, (tokenize source).size, Grammar.lastSpan .nowhere used, []⟩ used :=
    ⟨⟨hRest.symm, rfl⟩, rfl, rfl⟩
  simp [parse, Cursor.readProgram_eq h hs]

end ChipPascal
